import Mathlib
import ACENetwork.Proofs.BitTorrent.BencodingParser
import ACENetwork.Spec.BitTorrent.BencodingGrammar

/-! The actions of the grammar on every sequence of tokens that can be derived. -/

namespace ACENetwork.BitTorrent.MetaInfo

open Flex Bison

theorem tokensList_append (l l' : List Bencoding) :
    tokensList (l ++ l') = tokensList l ++ tokensList l' := by
  induction l with
  | nil => rfl
  | cons t l ih => rw [List.cons_append, tokensList, tokensList, ih, List.append_assoc]

theorem tokensEntries_append (ds ds' : List (List UInt8 × Bencoding)) :
    tokensEntries (ds ++ ds') = tokensEntries ds ++ tokensEntries ds' := by
  induction ds with
  | nil => rfl
  | cons e ds ih =>
    rw [List.cons_append, tokensEntries, tokensEntries, ih, List.cons_append, List.append_assoc]

def Describes (ts : List (Token × Lexeme)) : Symbol → Prop
  | .bencoding => ∃ ds, ts = tokens (.dictionary ds)
  | .listItems => ∃ l, ts = tokensList l
  | .listItem | .dictionaryValue => ∃ t, ts = tokens t
  | .dictionaryItems => ∃ ds, ts = tokensEntries ds
  | .dictionaryItem => ∃ k t, ts = tokensEntries [(k, t)]

theorem describes_of_derives {A : Symbol} {ts : List (Token × Lexeme)} (h : Derives A ts) :
    Describes ts A := by
  induction h with
  | bencoding _ ih =>
    obtain ⟨ds, rfl⟩ := ih
    exact ⟨ds, rfl⟩
  | listItems _ _ ih ih' =>
    obtain ⟨l, rfl⟩ := ih
    obtain ⟨t, rfl⟩ := ih'
    refine ⟨l ++ [t], ?_⟩
    rw [tokensList_append, tokensList, tokensList, List.append_nil]
  | listItemsEmpty => exact ⟨[], rfl⟩
  | itemString s => exact ⟨.string s, rfl⟩
  | itemInteger i => exact ⟨.integer i, rfl⟩
  | itemList _ ih =>
    obtain ⟨l, rfl⟩ := ih
    exact ⟨.list l, rfl⟩
  | itemDictionary _ ih =>
    obtain ⟨ds, rfl⟩ := ih
    exact ⟨.dictionary ds, rfl⟩
  | dictionaryItems _ _ ih ih' =>
    obtain ⟨ds, rfl⟩ := ih
    obtain ⟨k, t, rfl⟩ := ih'
    exact ⟨ds ++ [(k, t)], (tokensEntries_append _ _).symm⟩
  | dictionaryItemsEmpty => exact ⟨[], rfl⟩
  | dictionaryItem k _ ih =>
    obtain ⟨t, rfl⟩ := ih
    refine ⟨k, t, ?_⟩
    rw [tokensEntries, tokensEntries, List.append_nil]
  | valueString s => exact ⟨.string s, rfl⟩
  | valueInteger i => exact ⟨.integer i, rfl⟩
  | valueList _ ih =>
    obtain ⟨l, rfl⟩ := ih
    exact ⟨.list l, rfl⟩
  | valueDictionary _ ih =>
    obtain ⟨ds, rfl⟩ := ih
    exact ⟨.dictionary ds, rfl⟩

/-- The tokens of a list, one after the other. -/
def takeToken : List (Token × Lexeme) → Scan Token Lexeme Fault (List (Token × Lexeme))
  | [] => .token .end_ .none []
  | t :: ts => .token t.1 t.2 ts

theorem yields_takeToken (ts rest : List (Token × Lexeme)) :
    Yields id takeToken (ts ++ rest) ts rest := by
  induction ts with
  | nil => exact .nil rest
  | cons t ts ih => exact .cons (.token rfl) ih

theorem scan_idle {s : Scanner} (h : s.buffer = []) : ∃ f, scan true s = .fault f :=
  ⟨.assertion, by simp [scan, h]⟩

def Untouched (d : Driver) (r : Reduce Value Fault Driver) : Prop :=
  ∀ d', r.next = some d' → d'.scanner = d.scanner

theorem untouched_fault (d : Driver) (f : Fault) : Untouched d (.fault f) := by
  intro d' h
  simp [Reduce.next] at h

theorem untouched_yields {v : Value} {d d₁ : Driver} (hd : d₁.scanner = d.scanner) :
    Untouched d (yields v d₁) := by
  intro d' h
  obtain rfl : { d₁ with top := v } = d' := Option.some.inj h
  exact hd

theorem untouched_item {v : Value} {e : Element} {d d₁ : Driver} (hd : d₁.scanner = d.scanner) :
    Untouched d (item v e d₁) := by
  unfold item Driver.pushBackItem
  cases d₁.lists with
  | nil => exact untouched_fault d _
  | cons p ls => exact untouched_yields hd

theorem untouched_entry {v : Value} {e : Element} {pop : Driver → Driver} (d : Driver)
    (hpop : ∀ d, (pop d).scanner = d.scanner) : Untouched d (entry v e pop d) := by
  unfold entry Driver.pushBackEntry
  cases d.keys with
  | nil => exact untouched_fault d _
  | cons k ks =>
    simp only
    cases (pop { d with keys := ks }).dictionaries with
    | nil => exact untouched_fault d _
    | cons p ps => exact untouched_yields (hpop _)

theorem untouched_semantics (rule : GrammarRule) (vs : List Value) (d : Driver) :
    Untouched d (semantics rule vs d) := by
  unfold semantics
  split
  all_goals first
    | exact untouched_fault d _
    | exact untouched_yields rfl
    | exact untouched_item rfl
    | exact untouched_entry d fun _ => rfl
    | skip
  -- the actions that look at the value on top of the stack, or at the first dictionary
  all_goals split
  all_goals first
    | exact untouched_fault d _
    | exact untouched_yields rfl

/-- A path of the parser that does not read, with the tokens of a list behind it. -/
theorem path_tokenParser {c c' : Bison.Config Token Value Driver} (h : Goes true c c')
    (hc : c.state.scanner = idle.scanner) (hlook : c.look ≠ .scanning) (hlook' : c'.look ≠ .scanning)
    (ts : List (Token × Lexeme)) :
    Parser.Path tokenParser (fun _ => True) (Parser.configBeside ts c) (Parser.configBeside ts c') := by
  have hidle : ∀ d : Driver, d.scanner = idle.scanner →
      ∃ f, (parser true).scan ((parser true).enter d) = .fault f := by
    intro d hd
    have hbuffer : (enter d.scanner).buffer = [] := by rw [hd]; rfl
    obtain ⟨f, hf⟩ := scan_idle hbuffer
    exact ⟨f, by simp [parser, scanDriver, hf]⟩
  refine Parser.Path.rescan hidle (fun rule vs d d' hd hnext => ?_) h hc hlook hlook' ts
  exact (untouched_semantics rule vs d d' hnext).trans hd

def tokenFeed : Feed true (List (Token × Lexeme)) where
  enter := id
  scan := takeToken
  scanner := fun _ => idle.scanner
  Reaches := fun c c' => Parser.Path tokenParser (fun _ => True)
    ⟨c.1, .empty, (c.2.1, c.2.2)⟩ ⟨c'.1, .empty, (c'.2.1, c'.2.2)⟩
  refl := fun _ => .refl _
  trans := fun h₁ h₂ => h₁.trans h₂
  token := by
    intro stack stack' d d' ts ts' k x hf hc hlex hd hgoes
    have hread : Lexes tokenParser.scan (tokenParser.enter (d, ts)) k (d.new x).1
        (d.lexed x idle.scanner, ts') := by
      have hlexed : d.lexed x idle.scanner =
          { d with heap := (d.new x).2, top := (d.new x).1 } := by
        rw [← hd]
        rfl
      rw [hlexed]
      cases hlex with
      | token hscan =>
        refine .token ?_
        cases ts with
        | nil =>
          obtain ⟨rfl, rfl, rfl⟩ := Scan.token.inj hscan
          rfl
        | cons t ts =>
          obtain ⟨rfl, rfl, rfl⟩ := Scan.token.inj hscan
          rfl
      | more hscan _ => cases ts <;> simp [takeToken] at hscan
    exact (Parser.path_lex trivial hf hc hread).trans
      (path_tokenParser hgoes rfl (by simp) (by simp) ts')

theorem halts_end {v : Value} (d : Driver) :
    tokenParser.Halts ⟨[(2, v)], .empty, (d, [])⟩ (.returned .accepted ({ d with top := .none }, [])) := by
  have hread : Lexes tokenParser.scan (tokenParser.enter (d, [])) .end_ .none
      ({ d with top := .none }, []) := .token rfl
  have hfinal : top [(2, v)] ≠ tokenParser.final := (by decide : (2 : ℕ) ≠ 4)
  exact (Parser.halts_lex_shift hfinal rfl hread rfl rfl).2 ((Parser.halts_final rfl).2 rfl)

/-- For every sequence of tokens that can be derived the parser builds the tree that they describe,
records the outermost dictionary once, and leaves nothing else in its stacks. -/
theorem tokenParser_builds {ts : List (Token × Lexeme)} (h : Derives .bencoding ts) :
    ∃ ds, ts = tokens (.dictionary ds) ∧ ∃ d,
      tokenParser.Halts (Parser.start (idle, ts)) (.returned .accepted (d, [])) ∧ Finished d 0 ds := by
  obtain ⟨ds, rfl⟩ := describes_of_derives h
  refine ⟨ds, rfl, ?_⟩
  have hyields := yields_takeToken (tokens (.dictionary ds)) []
  rw [List.append_nil] at hyields
  obtain ⟨d, hreach, hd, -⟩ := fed_dictionary tokenFeed hyields
  obtain ⟨hdictionaries, hkeys, hlists, hrecords, hreads⟩ := hd
  exact ⟨{ d with top := .none }, hreach.halts.2 (halts_end d),
    hdictionaries, hkeys, hlists, hrecords, hreads⟩

/-- `d1:ali1eee` -/
theorem tokenParser_builds_list :
    Derives .bencoding [(.dictionary, .dictionary), (.string, .string [97]), (.list, .list),
      (.integer, .integer 1), (.endOfList, .none), (.endOfDictionary, .none)] ∧
    ∃ ds, [(.dictionary, .dictionary), (.string, .string [97]), (.list, .list),
      (.integer, .integer 1), (.endOfList, .none), (.endOfDictionary, .none)] =
        tokens (.dictionary ds) ∧ ∃ d,
      tokenParser.Halts (Parser.start (idle, [(.dictionary, .dictionary), (.string, .string [97]),
        (.list, .list), (.integer, .integer 1), (.endOfList, .none), (.endOfDictionary, .none)]))
          (.returned .accepted (d, [])) ∧ Finished d 0 ds := by
  have hlist : Derives .dictionaryValue [(.list, .list), (.integer, .integer 1), (.endOfList, .none)] :=
    .valueList (.listItems .listItemsEmpty (.itemInteger 1))
  have hderives : Derives .bencoding [(.dictionary, .dictionary), (.string, .string [97]), (.list, .list),
      (.integer, .integer 1), (.endOfList, .none), (.endOfDictionary, .none)] :=
    .bencoding (.dictionaryItems .dictionaryItemsEmpty (.dictionaryItem [97] hlist))
  exact ⟨hderives, tokenParser_builds hderives⟩

end ACENetwork.BitTorrent.MetaInfo
