import Mathlib
import ACENetwork.Proofs.BitTorrent.BencodingObjects

/-! The grammar of metainfo files. The stack of the parser, its stacks of containers and keys and
its objects follow the tokens: one lemma for each token that can be next, and from these what
every run does. -/

namespace ACENetwork.BitTorrent.MetaInfo

open Flex Bison

variable {debug : Bool} {d d' : Driver} {s s' : Scanner} {k : Token} {x : Lexeme} {v : Value}
  {r : Result Fault Driver} {b : Bool} {ts : List (Token × Lexeme)}

def Driver.lexed (d : Driver) (x : Lexeme) (s : Scanner) : Driver :=
  { d with scanner := s, heap := (d.new x).2, top := (d.new x).1 }

theorem lexes_scanDriver (h : Lexes (scan debug) d.scanner k x s') :
    Lexes (scanDriver debug) d k (d.new x).1 (d.lexed x s') := by
  generalize hs : d.scanner = s at h
  induction h generalizing d with
  | token hscan => exact .token (by simp [scanDriver, hs, hscan, Driver.lexed])
  | @more s s₁ s' k x hscan hlex ih =>
    have hmore : scanDriver debug d = .more { d with scanner := s₁ } := by simp [scanDriver, hs, hscan]
    exact .more hmore (ih (d := { d with scanner := s₁ }) rfl)

theorem exists_of_lexes_scanDriver (h : Lexes (scanDriver debug) d k v d') :
    ∃ x s', Lexes (scan debug) d.scanner k x s' ∧ v = (d.new x).1 ∧ d' = d.lexed x s' := by
  induction h with
  | @token d d' k v hscan =>
    unfold scanDriver at hscan
    split at hscan
    · simp at hscan
    · rename_i k' x s' hs
      obtain ⟨rfl, rfl, rfl⟩ := Scan.token.inj hscan
      exact ⟨x, s', .token hs, rfl, rfl⟩
    · simp at hscan
  | @more d d₁ d' k v hscan _ ih =>
    unfold scanDriver at hscan
    split at hscan
    · rename_i s₁ hs
      obtain rfl := Scan.more.inj hscan
      obtain ⟨x, s', hlex, hv, hd'⟩ := ih
      exact ⟨x, s', .more hs hlex, hv, hd'⟩
    · simp at hscan
    · simp at hscan

def Typed : Token → Lexeme → Prop
  | .string, x => ∃ w, x = .string w
  | .integer, x => ∃ i, x = .integer i
  | .list, x => x = .list
  | .dictionary, x => x = .dictionary
  | _, x => x = .none

theorem typed_of_lexes (h : Lexes (scan debug) s k x s') : Typed k x := by
  obtain ⟨s₁, -, hscan⟩ := h.exists_token
  cases moves_of_scan hscan with
  | string w => exact ⟨w, rfl⟩
  | integer yytext => exact ⟨_, rfl⟩
  | _ => rfl

namespace Zipper

def stack : {b : Bool} → Zipper b → List (ℕ × Value)
  | _, root p _ => [(5, .dval p), (3, .dval p), (1, .dval p)]
  | _, dictionary p _ outer =>
    match outer.isList with
    | false => (18, .dval p) :: (16, .dval p) :: (13, .dval p) :: outer.stack
    | true => (29, .dval p) :: (27, .dval p) :: (23, .dval p) :: outer.stack
  | _, key k inner => (9, .sval k) :: (7, .sval k) :: inner.stack
  | _, list p _ outer =>
    match outer.isList with
    | false => (17, .lval p) :: (15, .lval p) :: (12, .lval p) :: outer.stack
    | true => (28, .lval p) :: (26, .lval p) :: (22, .lval p) :: outer.stack

def valueState : Zipper true → ℕ
  | key _ _ => 14
  | list _ _ _ => 24

end Zipper

/-- The stacks of the driver. -/
structure Follows (d : Driver) (z : Zipper b) : Prop where
  dictionaries : d.dictionaries = z.dictionaries
  keys : d.keys = z.keys
  lists : d.lists = z.lists
  bencoding : d.bencoding = some z.outermost
  records : d.records = []

structure Represents (d : Driver) (z : Zipper b) : Prop where
  follows : Follows d z
  holds : z.Holds d.heap d.heap.length

abbrev Goes (debug : Bool) : Bison.Config Token Value Driver → Bison.Config Token Value Driver → Prop :=
  Parser.Path (parser debug) fun _ => True

variable (debug)

theorem goes_shift {stack : List (ℕ × Value)} {q : ℕ} (hc : consistent (top stack) = none)
    (ha : action (top stack) k = .shift q) :
    Goes debug ⟨stack, .token k v, d⟩ ⟨(q, v) :: stack, .empty, d⟩ := by
  refine Parser.path_shift trivial ?_ hc ha rfl
  intro hf
  rw [hf] at ha
  cases k <;> simp [parser, action] at ha

theorem goes_reduce (args rest : List (ℕ × Value)) {rule : GrammarRule} {w : Value}
    (hc : consistent (top (args ++ rest)) = some rule) (ha : args.length = arity rule)
    (hv : semantics rule (args.map Prod.snd).reverse d = .value w d') :
    Goes debug ⟨args ++ rest, .empty, d⟩ ⟨(goto (top rest) rule, w) :: rest, .empty, d'⟩ := by
  refine Parser.path_reduce args rest trivial ?_ (Or.inl hc) ha hv rfl
  intro hf
  rw [hf] at hc
  simp [parser, consistent] at hc

theorem goes_value (z : Zipper true) (w : Value) (t : Bencoding) :
    ∃ v, Goes debug ⟨(z.valueState, w) :: z.stack, .empty, d⟩
      ⟨(z.plug t).stack, .empty, { d with top := v }⟩ := by
  cases z with
  | key k inner =>
    have hitem : ∀ q m p v rest, goto q .dictionaryItem = 8 → goto m .dictionaryItems = q →
        Goes debug ⟨(14, w) :: (9, .sval k) :: (7, .sval k) :: (q, .dval p) :: (m, v) :: rest, .empty, d⟩
          ⟨(q, .dval p) :: (m, v) :: rest, .empty, { d with top := .dval p }⟩ := by
      intro q m p v rest hq hm
      have hentry := goes_reduce debug (d := d) [(14, w), (9, .sval k), (7, .sval k)]
        ((q, .dval p) :: (m, v) :: rest) rfl rfl rfl
      have hitems := goes_reduce debug (d := { d with top := .sval k }) [(8, .sval k), (q, .dval p)]
        ((m, v) :: rest) rfl rfl rfl
      simp only [top, hq, hm, List.cons_append, List.nil_append] at hentry hitems
      exact hentry.trans hitems
    cases inner with
    | root p ds => exact ⟨_, hitem 5 3 p _ _ rfl rfl⟩
    | dictionary p ds outer =>
      cases outer with
      | key k' inner' => exact ⟨_, hitem 18 16 p _ _ rfl rfl⟩
      | list p' l' outer' => exact ⟨_, hitem 29 27 p _ _ rfl rfl⟩
  | list p l outer =>
    have hitem : ∀ q m v rest, goto m .listItems = q →
        Goes debug ⟨(24, w) :: (q, .lval p) :: (m, v) :: rest, .empty, d⟩
          ⟨(q, .lval p) :: (m, v) :: rest, .empty, { d with top := .lval p }⟩ := by
      intro q m v rest hm
      have hitems := goes_reduce debug (d := d) [(24, w), (q, .lval p)]
        ((m, v) :: rest) rfl rfl rfl
      simp only [top, hm, List.cons_append, List.nil_append] at hitems
      exact hitems
    cases outer with
    | key k inner => exact ⟨_, hitem 17 15 _ _ rfl⟩
    | list p' l' outer' => exact ⟨_, hitem 28 26 _ _ rfl⟩

/-- What the action of a complete value does to the driver. -/
def put (z : Zipper true) (e : Element) (v : Value) (d : Driver) : Driver :=
  { d with
    keys := if z.isList then d.keys else d.keys.tail
    heap := z.pushBack e d.heap
    top := v }

theorem entry_put {w : List UInt8} {inner : Zipper false} {e : Element} {pop : Driver → Driver}
    (hfollows : Follows (pop d) (Zipper.key w inner))
    (hpop : ∀ ks, pop { d with keys := ks } = { pop d with keys := ks }) (hkeys : (pop d).keys = d.keys) :
    entry v e pop d = .value v (put (.key w inner) e v (pop d)) := by
  have hd : d.keys = w :: inner.keys := hkeys.symm.trans hfollows.keys
  have hdictionaries : (pop d).dictionaries = inner.dictionaries := hfollows.dictionaries
  have haddress : ∃ ps, inner.dictionaries = inner.address :: ps := by
    cases inner with
    | root p ds => exact ⟨_, rfl⟩
    | dictionary p ds outer => exact ⟨_, rfl⟩
  obtain ⟨ps, hps⟩ := haddress
  have hput : put (.key w inner) e v (pop d) =
      { pop d with
        keys := inner.keys
        heap := (pop d).heap.pushBackDictionary inner.address w e
        top := v } := by
    simp [put, Zipper.isList, Zipper.pushBack, hkeys, hd]
  unfold entry
  rw [hd]
  dsimp only
  rw [hpop, hput]
  simp only [Driver.pushBackEntry, hdictionaries, hps, yields]

theorem item_put {p : ℕ} {l : List Bencoding} {outer : Zipper true} {e : Element}
    (hfollows : Follows d (Zipper.list p l outer)) :
    item v e d = .value v (put (.list p l outer) e v d) := by
  have hlists : d.lists = p :: outer.lists := hfollows.lists
  simp [item, Driver.pushBackItem, hlists, yields, put, Zipper.isList, Zipper.pushBack]

theorem follows_put {z : Zipper true} {e : Element} (h : Follows d z) (t : Bencoding) :
    Follows (put z e v d) (z.plug t) := by
  obtain ⟨hdictionaries, hkeys, hlists, hbencoding, hrecords⟩ := h
  cases z with
  | key k inner =>
    have hk : (put (Zipper.key k inner) e v d).keys = inner.keys := by simp [put, Zipper.isList, hkeys, Zipper.keys]
    cases inner with
    | root p ds => exact ⟨hdictionaries, hk, hlists, hbencoding, hrecords⟩
    | dictionary p ds outer => exact ⟨hdictionaries, hk, hlists, hbencoding, hrecords⟩
  | list p l outer => exact ⟨hdictionaries, hkeys, hlists, hbencoding, hrecords⟩

/-- The value `e` was read last, into the part of the heap from `lo` on. -/
theorem goes_put {z : Zipper true} {lo : ℕ} {e : Element} {t : Bencoding} (hfollows : Follows d z)
    (hholds : z.Holds d.heap lo) (hlo : lo ≤ d.heap.length) (howns : d.heap.Owns lo d.heap.length e t) :
    ∃ d', Goes debug ⟨(z.valueState, v) :: z.stack, .empty, put z e v d⟩ ⟨(z.plug t).stack, .empty, d'⟩ ∧
      Represents d' (z.plug t) ∧ d'.scanner = d.scanner := by
  obtain ⟨w, hgoes⟩ := goes_value debug (d := put z e v d) z v t
  refine ⟨_, hgoes, ⟨?_, ?_⟩, rfl⟩
  · obtain ⟨hdictionaries, hkeys, hlists, hbencoding, hrecords⟩ := follows_put (v := v) (e := e) hfollows t
    exact ⟨hdictionaries, hkeys, hlists, hbencoding, hrecords⟩
  · have hplug := hholds.plug hlo howns
    have hlength : (z.pushBack e d.heap).length = d.heap.length := Zipper.length_pushBack z
    show (z.plug t).Holds (z.pushBack e d.heap) (z.pushBack e d.heap).length
    rw [hlength]
    exact hplug

theorem goes_key (z : Zipper false) {w : List UInt8} (htop : d.top = .sval w) :
    Goes debug ⟨z.stack, .token .string (.sval w), d⟩
      ⟨(Zipper.key w z).stack, .empty, { d with keys := w :: d.keys }⟩ := by
  have hsemantics : semantics .pushKey [] d = .value (.sval w) { d with keys := w :: d.keys } := by
    simp [semantics, htop, yields]
  have hkey : ∀ stack : List (ℕ × Value), consistent (top stack) = none → action (top stack) .string = .shift 7 →
      Goes debug ⟨stack, .token .string (.sval w), d⟩
        ⟨(9, .sval w) :: (7, .sval w) :: stack, .empty, { d with keys := w :: d.keys }⟩ := by
    intro stack hc ha
    exact (goes_shift _ hc ha).trans (goes_reduce _ [] _ rfl rfl hsemantics)
  cases z with
  | root p ds => exact hkey _ rfl rfl
  | dictionary p ds outer =>
    cases outer with
    | key k' inner' => exact hkey _ rfl rfl
    | list p' l' outer' => exact hkey _ rfl rfl

theorem goes_atom {stack : List (ℕ × Value)} {q : ℕ} {rule : GrammarRule}
    (hc : consistent (top stack) = none) (ha : action (top stack) k = .shift q)
    (hq : consistent q = some rule) (harity : arity rule = 1)
    (hv : semantics rule [v] d = .value v d') :
    Goes debug ⟨stack, .token k v, d⟩ ⟨(goto (top stack) rule, v) :: stack, .empty, d'⟩ :=
  (goes_shift _ hc ha).trans (goes_reduce _ [(q, v)] _ hq harity.symm hv)

theorem goes_string {z : Zipper true} (h : Represents d z) (w : List UInt8) :
    ∃ d', Goes debug ⟨z.stack, .token .string (.sval w), d⟩ ⟨(z.plug (.string w)).stack, .empty, d'⟩ ∧
      Represents d' (z.plug (.string w)) ∧ d'.scanner = d.scanner := by
  have hput := goes_put debug (v := .sval w) h.follows h.holds le_rfl (Heap.owns_string w)
  obtain ⟨d', hgoes, hd'⟩ := hput
  refine ⟨d', Parser.Path.trans ?_ hgoes, hd'⟩
  cases z with
  | key k inner =>
    have hentry : semantics .valueString [.sval w] d = _ := entry_put h.follows (fun _ => rfl) rfl
    exact goes_atom _ rfl rfl rfl rfl hentry
  | list p l outer =>
    have hitem : semantics .itemString [.sval w] d = _ := item_put h.follows
    cases outer with
    | key k inner => exact goes_atom _ rfl rfl rfl rfl hitem
    | list p' l' outer' => exact goes_atom _ rfl rfl rfl rfl hitem

theorem goes_integer {z : Zipper true} (h : Represents d z) (i : ℤ) :
    ∃ d', Goes debug ⟨z.stack, .token .integer (.ival i), d⟩ ⟨(z.plug (.integer i)).stack, .empty, d'⟩ ∧
      Represents d' (z.plug (.integer i)) ∧ d'.scanner = d.scanner := by
  have hput := goes_put debug (v := .ival i) h.follows h.holds le_rfl (Heap.owns_integer i)
  obtain ⟨d', hgoes, hd'⟩ := hput
  refine ⟨d', Parser.Path.trans ?_ hgoes, hd'⟩
  cases z with
  | key k inner =>
    have hentry : semantics .valueInteger [.ival i] d = _ := entry_put h.follows (fun _ => rfl) rfl
    exact goes_atom _ rfl rfl rfl rfl hentry
  | list p l outer =>
    have hitem : semantics .itemInteger [.ival i] d = _ := item_put h.follows
    cases outer with
    | key k inner => exact goes_atom _ rfl rfl rfl rfl hitem
    | list p' l' outer' => exact goes_atom _ rfl rfl rfl rfl hitem

/-- A container is opened: its token is shifted, and two rules without right-hand side follow. -/
theorem goes_open {stack : List (ℕ × Value)} {q q₁ q₂ : ℕ} {rule₁ rule₂ : GrammarRule} {d₁ d₂ : Driver}
    (hc : consistent (top stack) = none) (ha : action (top stack) k = .shift q)
    (hq : consistent q = some rule₁) (harity₁ : arity rule₁ = 0)
    (hv₁ : semantics rule₁ [] d = .value v d₁) (hq₁ : goto q rule₁ = q₁)
    (hc₁ : consistent q₁ = some rule₂) (harity₂ : arity rule₂ = 0)
    (hv₂ : semantics rule₂ [] d₁ = .value v d₂) (hq₂ : goto q₁ rule₂ = q₂) :
    Goes debug ⟨stack, .token k v, d⟩ ⟨(q₂, v) :: (q₁, v) :: (q, v) :: stack, .empty, d₂⟩ := by
  have hfirst := goes_reduce debug [] ((q, v) :: stack) hq harity₁.symm hv₁
  rw [List.nil_append, top, hq₁] at hfirst
  have hsecond := goes_reduce debug [] ((q₁, v) :: (q, v) :: stack) hc₁ harity₂.symm hv₂
  rw [List.nil_append, top, hq₂] at hsecond
  exact ((goes_shift _ hc ha).trans hfirst).trans hsecond

theorem goes_list {z : Zipper true} {p : ℕ} (hfollows : Follows d z) (hholds : z.Holds d.heap p)
    (hlength : d.heap.length = p + 1) (hp : d.heap[p]? = some (.list [])) (htop : d.top = .lval p) :
    ∃ d', Goes debug ⟨z.stack, .token .list (.lval p), d⟩ ⟨(Zipper.list p [] z).stack, .empty, d'⟩ ∧
      Represents d' (Zipper.list p [] z) ∧ d'.scanner = d.scanner := by
  obtain ⟨hdictionaries, hkeys, hlists, hbencoding, hrecords⟩ := hfollows
  refine ⟨{ d with lists := p :: d.lists }, ?_, ⟨⟨hdictionaries, hkeys, ?_, hbencoding, hrecords⟩, ?_⟩, rfl⟩
  · have hpush : semantics .valuePushList [] d = .value (.lval p) { d with lists := p :: d.lists } := by
      simp [semantics, htop, yields]
    have hitems : semantics .listItemsEmpty [] { d with lists := p :: d.lists } =
        .value (.lval p) { d with lists := p :: d.lists } := by
      simp [semantics, htop, yields]
    cases z with
    | key k inner => exact goes_open _ rfl rfl rfl rfl hpush rfl rfl rfl hitems rfl
    | list p' l' outer =>
      have hpush' : semantics .itemPushList [] d = _ := hpush
      cases outer with
      | key k inner => exact goes_open _ rfl rfl rfl rfl hpush' rfl rfl rfl hitems rfl
      | list p'' l'' outer' => exact goes_open _ rfl rfl rfl rfl hpush' rfl rfl rfl hitems rfl
  · show p :: d.lists = p :: z.lists
    rw [hlists]
  · exact ⟨⟨by show p < d.heap.length; omega, [], hp, Heap.ownsAll_nil⟩, hholds⟩

theorem goes_dictionary {z : Zipper true} {p : ℕ} (hfollows : Follows d z) (hholds : z.Holds d.heap p)
    (hlength : d.heap.length = p + 1) (hp : d.heap[p]? = some (.dictionary [])) (htop : d.top = .dval p) :
    ∃ d', Goes debug ⟨z.stack, .token .dictionary (.dval p), d⟩
        ⟨(Zipper.dictionary p [] z).stack, .empty, d'⟩ ∧
      Represents d' (Zipper.dictionary p [] z) ∧ d'.scanner = d.scanner := by
  obtain ⟨hdictionaries, hkeys, hlists, hbencoding, hrecords⟩ := hfollows
  refine ⟨d.pushDictionary p, ?_, ⟨⟨?_, hkeys, hlists, ?_, hrecords⟩, ?_⟩, rfl⟩
  · have hpush : semantics .valuePushDictionary [] d = .value (.dval p) (d.pushDictionary p) := by
      simp [semantics, htop, yields, Driver.pushDictionary]
    have hitems : semantics .dictionaryItemsEmpty [] (d.pushDictionary p) =
        .value (.dval p) (d.pushDictionary p) := by
      simp [semantics, htop, yields, Driver.pushDictionary]
    cases z with
    | key k inner => exact goes_open _ rfl rfl rfl rfl hpush rfl rfl rfl hitems rfl
    | list p' l' outer =>
      have hpush' : semantics .itemPushDictionary [] d = _ := hpush
      cases outer with
      | key k inner => exact goes_open _ rfl rfl rfl rfl hpush' rfl rfl rfl hitems rfl
      | list p'' l'' outer' => exact goes_open _ rfl rfl rfl rfl hpush' rfl rfl rfl hitems rfl
  · show p :: d.dictionaries = p :: z.dictionaries
    rw [hdictionaries]
  · show (d.bencoding <|> some p) = some z.outermost
    rw [hbencoding]
    rfl
  · exact ⟨⟨by show p < d.heap.length; omega, [], hp, Heap.ownsEntries_nil⟩, hholds⟩

/-- A container is closed: the token behind it is shifted, and the whole is reduced. -/
theorem goes_close {rest : List (ℕ × Value)} {q₀ q₁ q₂ q : ℕ} {rule : GrammarRule} {v₀ : Value}
    (hc : consistent q₂ = none) (ha : action q₂ k = .shift q) (hq : consistent q = some rule)
    (harity : arity rule = 4) (hv : semantics rule [v₀, v₀, v₀, v] d = .value v₀ d') :
    Goes debug ⟨(q₂, v₀) :: (q₁, v₀) :: (q₀, v₀) :: rest, .token k v, d⟩
      ⟨(goto (top rest) rule, v₀) :: rest, .empty, d'⟩ := by
  have hshift : Goes debug ⟨(q₂, v₀) :: (q₁, v₀) :: (q₀, v₀) :: rest, .token k v, d⟩
      ⟨(q, v) :: (q₂, v₀) :: (q₁, v₀) :: (q₀, v₀) :: rest, .empty, d⟩ := goes_shift debug hc ha
  exact hshift.trans (goes_reduce _ [(q, v), (q₂, v₀), (q₁, v₀), (q₀, v₀)] rest hq harity.symm hv)

theorem goes_listEnd {p : ℕ} {l : List Bencoding} {outer : Zipper true}
    (h : Represents d (Zipper.list p l outer)) :
    ∃ d', Goes debug ⟨(Zipper.list p l outer).stack, .token .endOfList v, d⟩
        ⟨(outer.plug (.list l)).stack, .empty, d'⟩ ∧
      Represents d' (outer.plug (.list l)) ∧ d'.scanner = d.scanner := by
  obtain ⟨⟨hdictionaries, hkeys, hlists, hbencoding, hrecords⟩, ⟨hp, es, hes, howns⟩, hholds⟩ := h
  have hfollows : Follows (popList d) outer := by
    refine ⟨hdictionaries, hkeys, ?_, hbencoding, hrecords⟩
    show d.lists.tail = outer.lists
    rw [hlists]
    rfl
  have hput := goes_put debug (v := .lval p) hfollows hholds hp.le (Heap.owns_list hes hp howns)
  obtain ⟨d', hgoes, hd'⟩ := hput
  refine ⟨d', Parser.Path.trans ?_ hgoes, hd'⟩
  cases outer with
  | key k inner =>
    have hentry : semantics .valueList [.lval p, .lval p, .lval p, v] d = _ :=
      entry_put hfollows (fun _ => rfl) rfl
    exact goes_close _ rfl rfl rfl rfl hentry
  | list p' l' outer' =>
    have hitem : semantics .itemList [.lval p, .lval p, .lval p, v] d = _ := item_put hfollows
    cases outer' with
    | key k inner => exact goes_close _ rfl rfl rfl rfl hitem
    | list p'' l'' outer'' => exact goes_close _ rfl rfl rfl rfl hitem

theorem goes_dictionaryEnd {p : ℕ} {ds : List (List UInt8 × Bencoding)} {outer : Zipper true}
    (h : Represents d (Zipper.dictionary p ds outer)) :
    ∃ d', Goes debug ⟨(Zipper.dictionary p ds outer).stack, .token .endOfDictionary v, d⟩
        ⟨(outer.plug (.dictionary ds)).stack, .empty, d'⟩ ∧
      Represents d' (outer.plug (.dictionary ds)) ∧ d'.scanner = d.scanner := by
  obtain ⟨⟨hdictionaries, hkeys, hlists, hbencoding, hrecords⟩, ⟨hp, es, hes, howns⟩, hholds⟩ := h
  have hfollows : Follows (popDictionary d) outer := by
    refine ⟨?_, hkeys, hlists, hbencoding, hrecords⟩
    show d.dictionaries.tail = outer.dictionaries
    rw [hdictionaries]
    rfl
  have hput := goes_put debug (v := .dval p) hfollows hholds hp.le
    (Heap.owns_dictionary hes hp howns)
  obtain ⟨d', hgoes, hd'⟩ := hput
  refine ⟨d', Parser.Path.trans ?_ hgoes, hd'⟩
  cases outer with
  | key k inner =>
    have hentry : semantics .valueDictionary [.dval p, .dval p, .dval p, v] d = _ :=
      entry_put hfollows (fun _ => rfl) rfl
    exact goes_close _ rfl rfl rfl rfl hentry
  | list p' l' outer' =>
    have hitem : semantics .itemDictionary [.dval p, .dval p, .dval p, v] d = _ := item_put hfollows
    cases outer' with
    | key k inner => exact goes_close _ rfl rfl rfl rfl hitem
    | list p'' l'' outer'' => exact goes_close _ rfl rfl rfl rfl hitem

theorem Zipper.waits (z : Zipper b) : top z.stack ≠ 4 ∧ consistent (top z.stack) = none := by
  cases z with
  | root p ds => exact ⟨(by decide : (5 : ℕ) ≠ 4), rfl⟩
  | key k inner => exact ⟨(by decide : (9 : ℕ) ≠ 4), rfl⟩
  | dictionary p ds outer =>
    cases outer with
    | key k inner => exact ⟨(by decide : (18 : ℕ) ≠ 4), rfl⟩
    | list p' l' outer' => exact ⟨(by decide : (29 : ℕ) ≠ 4), rfl⟩
  | list p l outer =>
    cases outer with
    | key k inner => exact ⟨(by decide : (17 : ℕ) ≠ 4), rfl⟩
    | list p' l' outer' => exact ⟨(by decide : (28 : ℕ) ≠ 4), rfl⟩

theorem goes_read (stack : List (ℕ × Value)) (hf : top stack ≠ 4) (hc : consistent (top stack) = none)
    (h : Lexes (scan debug) (enter d.scanner) k x s') :
    Goes debug ⟨stack, .empty, d⟩ ⟨stack, .token k (d.new x).1, d.lexed x s'⟩ :=
  Parser.path_lex trivial hf hc (lexes_scanDriver (d := { d with scanner := enter d.scanner }) h)

theorem follows_lexed {z : Zipper b} (h : Follows d z) : Follows (d.lexed x s') z :=
  ⟨h.dictionaries, h.keys, h.lists, h.bencoding, h.records⟩

theorem represents_lexed {z : Zipper b} (x : Lexeme) (s' : Scanner) (h : Represents d z) (hx : (d.new x).2 = d.heap) :
    Represents (d.lexed x s') z := by
  refine ⟨follows_lexed h.follows, ?_⟩
  show z.Holds (d.new x).2 (d.new x).2.length
  rw [hx]
  exact h.holds

theorem represents_key {z : Zipper false} {w : List UInt8} (h : Represents d z) :
    Represents { d with keys := w :: d.keys } (Zipper.key w z) := by
  obtain ⟨⟨hdictionaries, hkeys, hlists, hbencoding, hrecords⟩, hholds⟩ := h
  refine ⟨⟨hdictionaries, ?_, hlists, hbencoding, hrecords⟩, hholds⟩
  show w :: d.keys = w :: z.keys
  rw [hkeys]

theorem holds_new {z : Zipper b} (h : z.Holds d.heap d.heap.length) (o : Object) :
    z.Holds (d.heap ++ [o]) d.heap.length := h.congr (Heap.agrees_append le_rfl)

/-- A machine that feeds the parser with tokens from a place of its own, `S`: what it can reach from
a stack, a driver and a place. -/
structure Feed (S : Type) where
  enter : S → S
  scan : S → Scan Token Lexeme Fault S
  scanner : S → Scanner
  Reaches : List (ℕ × Value) × Driver × S → List (ℕ × Value) × Driver × S → Prop
  refl : ∀ c, Reaches c c
  trans : ∀ {c₁ c₂ c₃}, Reaches c₁ c₂ → Reaches c₂ c₃ → Reaches c₁ c₃
  token : ∀ {stack stack' d d' s s' k x}, top stack ≠ 4 → consistent (top stack) = none →
    Lexes scan (enter s) k x s' → d.scanner = scanner s →
    Goes debug ⟨stack, .token k (d.new x).1, d.lexed x (scanner s')⟩ ⟨stack', .empty, d'⟩ →
    Reaches (stack, d, s) (stack', d', s')

def scannerFeed : Feed debug Scanner where
  enter := enter
  scan := scan debug
  scanner := id
  Reaches := fun c c' => Goes debug ⟨c.1, .empty, c.2.1⟩ ⟨c'.1, .empty, c'.2.1⟩
  refl := fun _ => .refl _
  trans := fun h₁ h₂ => h₁.trans h₂
  token := fun {stack _ d _ s _ _ _} hf hc hlex (hs : d.scanner = s) hgoes =>
    (goes_read debug stack hf hc (hs ▸ hlex)).trans hgoes

/-- Entries are added to the innermost dictionary. -/
def Zipper.append (ds : List (List UInt8 × Bencoding)) : Zipper false → Zipper false
  | root p d => root p (d ++ ds)
  | dictionary p d outer => dictionary p (d ++ ds) outer

section Feed

variable {debug} {S : Type} (F : Feed debug S) {q q' : S}

/-- The driver follows the tokens, and its scanner is where the tokens come from. -/
structure Fed (d : Driver) (q : S) (z : Zipper b) : Prop where
  represents : Represents d z
  scanner : d.scanner = F.scanner q

variable {F}

theorem Fed.token {b' : Bool} {z : Zipper b} {z' : Zipper b'} (h : Fed F d q z)
    (hlex : Lexes F.scan (F.enter q) k x q')
    (hgoes : ∃ d', Goes debug ⟨z.stack, .token k (d.new x).1, d.lexed x (F.scanner q')⟩
        ⟨z'.stack, .empty, d'⟩ ∧
      Represents d' z' ∧ d'.scanner = F.scanner q') :
    ∃ d', F.Reaches (z.stack, d, q) (z'.stack, d', q') ∧ Fed F d' q' z' := by
  obtain ⟨d', hgoes, hd', hscanner⟩ := hgoes
  exact ⟨d', F.token z.waits.1 z.waits.2 hlex h.scanner hgoes, hd', hscanner⟩

theorem Fed.key {z : Zipper false} {w : List UInt8} (h : Fed F d q z)
    (hlex : Lexes F.scan (F.enter q) .string (.string w) q') :
    ∃ d', F.Reaches (z.stack, d, q) ((Zipper.key w z).stack, d', q') ∧
      Fed F d' q' (Zipper.key w z) :=
  h.token hlex ⟨_, goes_key debug z rfl,
    represents_key (represents_lexed _ _ h.represents rfl), rfl⟩

theorem Fed.list {z : Zipper true} (h : Fed F d q z) (hlex : Lexes F.scan (F.enter q) .list .list q') :
    ∃ d', F.Reaches (z.stack, d, q) ((Zipper.list d.heap.length [] z).stack, d', q') ∧
      Fed F d' q' (Zipper.list d.heap.length [] z) :=
  h.token hlex (goes_list debug (follows_lexed h.represents.follows)
    (holds_new h.represents.holds _) (by simp [Driver.lexed, Driver.new])
    (by simp [Driver.lexed, Driver.new]) rfl)

theorem Fed.dictionary {z : Zipper true} (h : Fed F d q z)
    (hlex : Lexes F.scan (F.enter q) .dictionary .dictionary q') :
    ∃ d', F.Reaches (z.stack, d, q) ((Zipper.dictionary d.heap.length [] z).stack, d', q') ∧
      Fed F d' q' (Zipper.dictionary d.heap.length [] z) :=
  h.token hlex (goes_dictionary debug (follows_lexed h.represents.follows)
    (holds_new h.represents.holds _) (by simp [Driver.lexed, Driver.new])
    (by simp [Driver.lexed, Driver.new]) rfl)

mutual

theorem fed_tokens : ∀ (t : Bencoding) (z : Zipper true) (d : Driver) (q q' : S), Fed F d q z →
    Yields F.enter F.scan q (tokens t) q' →
      ∃ d', F.Reaches (z.stack, d, q) ((z.plug t).stack, d', q') ∧ Fed F d' q' (z.plug t)
  | .string w, z, d, q, q', hd, h => by
    cases h with
    | cons hlex hnil =>
      cases hnil
      exact hd.token hlex (goes_string debug (represents_lexed (.string w) _ hd.represents rfl) w)
  | .integer i, z, d, q, q', hd, h => by
    cases h with
    | cons hlex hnil =>
      cases hnil
      exact hd.token hlex (goes_integer debug (represents_lexed (.integer i) _ hd.represents rfl) i)
  | .list l, z, d, q, q', hd, h => by
    cases h with
    | cons hlex h =>
      obtain ⟨q₁, hl, hend⟩ := yields_append_iff.1 h
      obtain ⟨d₁, hreach₁, hd₁⟩ := hd.list hlex
      obtain ⟨d₂, hreach₂, hd₂⟩ := fed_tokensList l _ [] z d₁ _ q₁ hd₁ hl
      rw [List.nil_append] at hreach₂ hd₂
      cases hend with
      | cons hlex' hnil =>
        cases hnil
        obtain ⟨d', hreach, hd'⟩ := hd₂.token hlex'
          (goes_listEnd debug (represents_lexed .none _ hd₂.represents rfl))
        exact ⟨d', F.trans (F.trans hreach₁ hreach₂) hreach, hd'⟩
  | .dictionary ds, z, d, q, q', hd, h => by
    cases h with
    | cons hlex h =>
      obtain ⟨q₁, hds, hend⟩ := yields_append_iff.1 h
      obtain ⟨d₁, hreach₁, hd₁⟩ := hd.dictionary hlex
      obtain ⟨d₂, hreach₂, hd₂⟩ := fed_tokensEntries ds _ d₁ _ q₁ hd₁ hds
      cases hend with
      | cons hlex' hnil =>
        cases hnil
        obtain ⟨d', hreach, hd'⟩ := hd₂.token hlex'
          (goes_dictionaryEnd debug (represents_lexed .none _ hd₂.represents rfl))
        exact ⟨d', F.trans (F.trans hreach₁ hreach₂) hreach, hd'⟩

theorem fed_tokensList : ∀ (l : List Bencoding) (p : ℕ) (l₀ : List Bencoding) (outer : Zipper true)
    (d : Driver) (q q' : S), Fed F d q (Zipper.list p l₀ outer) →
    Yields F.enter F.scan q (tokensList l) q' →
      ∃ d', F.Reaches ((Zipper.list p l₀ outer).stack, d, q)
          ((Zipper.list p (l₀ ++ l) outer).stack, d', q') ∧
        Fed F d' q' (Zipper.list p (l₀ ++ l) outer)
  | [], p, l₀, outer, d, q, q', hd, h => by
    cases h
    rw [List.append_nil]
    exact ⟨d, F.refl _, hd⟩
  | t :: l, p, l₀, outer, d, q, q', hd, h => by
    obtain ⟨q₁, ht, hl⟩ := yields_append_iff.1 h
    obtain ⟨d₁, hreach₁, hd₁⟩ := fed_tokens t _ d q q₁ hd ht
    obtain ⟨d₂, hreach₂, hd₂⟩ := fed_tokensList l p (l₀ ++ [t]) outer d₁ q₁ q' hd₁ hl
    rw [List.append_assoc, List.singleton_append] at hreach₂ hd₂
    exact ⟨d₂, F.trans hreach₁ hreach₂, hd₂⟩

theorem fed_tokensEntries : ∀ (ds : List (List UInt8 × Bencoding)) (z : Zipper false) (d : Driver)
    (q q' : S), Fed F d q z → Yields F.enter F.scan q (tokensEntries ds) q' →
      ∃ d', F.Reaches (z.stack, d, q) ((z.append ds).stack, d', q') ∧ Fed F d' q' (z.append ds)
  | [], z, d, q, q', hd, h => by
    cases h
    have hz : z.append [] = z := by cases z <;> simp [Zipper.append]
    rw [hz]
    exact ⟨d, F.refl _, hd⟩
  | (k, t) :: ds, z, d, q, q', hd, h => by
    cases h with
    | cons hlex h =>
      obtain ⟨q₁, ht, hds⟩ := yields_append_iff.1 h
      obtain ⟨d₁, hreach₁, hd₁⟩ := hd.key hlex
      obtain ⟨d₂, hreach₂, hd₂⟩ := fed_tokens t (Zipper.key k z) d₁ _ q₁ hd₁ ht
      obtain ⟨d₃, hreach₃, hd₃⟩ := fed_tokensEntries ds (z.add k t) d₂ q₁ q' hd₂ hds
      have hz : (z.add k t).append ds = z.append ((k, t) :: ds) := by
        cases z <;> simp [Zipper.append, Zipper.add]
      rw [hz] at hreach₃ hd₃
      exact ⟨d₃, F.trans (F.trans hreach₁ hreach₂) hreach₃, hd₃⟩

end

end Feed

/-- The driver behind the outermost dictionary. -/
structure Finished (d : Driver) (p : ℕ) (ds : List (List UInt8 × Bencoding)) : Prop where
  dictionaries : d.dictionaries = [p]
  keys : d.keys = []
  lists : d.lists = []
  records : d.records = [p]
  reads : d.heap.Reads (.dictionary p) (.dictionary ds)

theorem goes_start (s s' : Scanner) :
    ∃ d', Goes debug ⟨[], .token .dictionary (.dval 0), Driver.lexed { scanner := s } .dictionary s'⟩
        ⟨(Zipper.root 0 []).stack, .empty, d'⟩ ∧
      Represents d' (Zipper.root 0 []) ∧ d'.scanner = s' := by
  have hpush : semantics .pushBencoding [] (Driver.lexed { scanner := s } .dictionary s') =
      .value (.dval 0) ((Driver.lexed { scanner := s } .dictionary s').pushDictionary 0) := rfl
  have hitems : semantics .dictionaryItemsEmpty []
        ((Driver.lexed { scanner := s } .dictionary s').pushDictionary 0) =
      .value (.dval 0) ((Driver.lexed { scanner := s } .dictionary s').pushDictionary 0) := rfl
  refine ⟨_, goes_open debug rfl rfl rfl rfl hpush rfl rfl rfl hitems rfl,
    ⟨⟨rfl, rfl, rfl, rfl, rfl⟩, ?_⟩, rfl⟩
  exact ⟨Nat.zero_lt_one, [], rfl, Heap.ownsEntries_nil⟩

theorem goes_end {p : ℕ} {ds : List (List UInt8 × Bencoding)} (h : Represents d (Zipper.root p ds)) :
    ∃ d', Goes debug ⟨(Zipper.root p ds).stack, .token .endOfDictionary v, d⟩ ⟨[(2, .dval p)], .empty, d'⟩ ∧
      Finished d' p ds ∧ d'.scanner = d.scanner := by
  obtain ⟨⟨hdictionaries, hkeys, hlists, hbencoding, hrecords⟩, hp, es, hes, howns⟩ := h
  have hreads : d.heap.Reads (.dictionary p) (.dictionary ds) := (Heap.owns_dictionary hes hp howns).reads
  have hrecord : semantics .bencoding [.dval p, .dval p, .dval p, v] d =
      .value (.dval p) { d with records := [p], top := .dval p } := by
    have hfirst : d.bencoding = some p := hbencoding
    simp [semantics, hfirst, hrecords, yields]
  exact ⟨_, goes_close _ rfl rfl rfl rfl hrecord,
    ⟨hdictionaries, hkeys, hlists, rfl, hreads⟩, rfl⟩

theorem finished_lexed {p : ℕ} {ds : List (List UInt8 × Bencoding)} (h : Finished d p ds)
    (hx : (d.new x).2 = d.heap) : Finished (d.lexed x s') p ds := by
  obtain ⟨hdictionaries, hkeys, hlists, hrecords, hreads⟩ := h
  refine ⟨hdictionaries, hkeys, hlists, hrecords, ?_⟩
  show Heap.Reads (d.new x).2 _ _
  rw [hx]
  exact hreads

/-- Behind the outermost dictionary, only the end of the file is accepted. -/
theorem halts_token_iff {w : Value} :
    (parser debug).Halts ⟨[(2, v)], .token k w, d⟩ (.returned .accepted d') ↔ k = .end_ ∧ d' = d := by
  by_cases hk : k = .end_
  · subst hk
    have hshift : Goes debug ⟨[(2, v)], .token .end_ w, d⟩ ⟨[(4, w), (2, v)], .empty, d⟩ :=
      goes_shift debug rfl rfl
    rw [hshift.halts, Parser.halts_final rfl]
    simp
  · have herror : action 2 k = .error := by cases k <;> simp_all [action]
    rw [Parser.halts_error (by exact (by decide : (2 : ℕ) ≠ 4)) rfl herror]
    simp [hk]

variable {debug} in
theorem fed_dictionary {S : Type} (F : Feed debug S) {ds : List (List UInt8 × Bencoding)} {q q' : S}
    (h : Yields F.enter F.scan q (tokens (.dictionary ds)) q') :
    ∃ d, F.Reaches ([], { scanner := F.scanner q }, q) ([(2, .dval 0)], d, q') ∧ Finished d 0 ds ∧
      d.scanner = F.scanner q' := by
  cases h with
  | @cons _ q₀ _ _ _ _ hlex h =>
    obtain ⟨q₁, hds, hclose⟩ := yields_append_iff.1 h
    obtain ⟨d₁, hgoes₁, hd₁, hscanner₁⟩ := goes_start debug (F.scanner q) (F.scanner q₀)
    have htop : top ([] : List (ℕ × Value)) ≠ 4 := (by decide : (0 : ℕ) ≠ 4)
    have hreach₁ : F.Reaches ([], { scanner := F.scanner q }, q) ((Zipper.root 0 []).stack, d₁, q₀) :=
      F.token htop rfl hlex rfl hgoes₁
    obtain ⟨d₂, hreach₂, hd₂⟩ := fed_tokensEntries ds _ d₁ _ q₁ (F := F) ⟨hd₁, hscanner₁⟩ hds
    cases hclose with
    | cons hlex' hnil =>
      cases hnil
      obtain ⟨d₃, hgoes₃, hd₃, hscanner₃⟩ := goes_end debug (v := .none)
        (represents_lexed .none (F.scanner q') hd₂.represents rfl)
      have hreach₃ := F.token (Zipper.waits _).1 (Zipper.waits _).2 hlex' hd₂.scanner hgoes₃
      exact ⟨d₃, F.trans (F.trans hreach₁ hreach₂) hreach₃, hd₃, hscanner₃⟩

theorem halts_of_yields {ds : List (List UInt8 × Bencoding)} {s₁ : Scanner}
    (h : Yields enter (scan debug) s (tokens (.dictionary ds)) s₁)
    (hend : Lexes (scan debug) (enter s₁) .end_ .none s') :
    ∃ d, (parser debug).Halts (Parser.start { scanner := s }) (.returned .accepted d) ∧
      Finished d 0 ds := by
  obtain ⟨d, hreach, hd, hscanner⟩ := fed_dictionary (scannerFeed debug) h
  have hgoes : Goes debug ⟨[], .empty, { scanner := s }⟩ ⟨[(2, .dval 0)], .empty, d⟩ := hreach
  have hs₁ : d.scanner = s₁ := hscanner
  have hread := goes_read debug (d := d) [(2, .dval 0)] (by exact (by decide : (2 : ℕ) ≠ 4)) rfl
    (hs₁ ▸ hend)
  refine ⟨d.lexed .none s', ?_, finished_lexed hd rfl⟩
  exact (hgoes.trans hread).halts.2 ((halts_token_iff _).2 ⟨rfl, rfl⟩)

/-- What a token in front of the parser leads _ to: the containers follow it, or the outermost
dictionary is complete, or there is no action for it. -/
inductive Leads (debug : Bool) (d : Driver) (k : Token) (x : Lexeme) (s' : Scanner) :
    {b : Bool} → Zipper b → Prop where
  | follows {b b' : Bool} {z : Zipper b} {z' : Zipper b'} {d' : Driver}
    (hgoes : Goes debug ⟨z.stack, .token k (d.new x).1, d.lexed x s'⟩ ⟨z'.stack, .empty, d'⟩)
    (hd' : Represents d' z') (hscanner : d'.scanner = s') (hread : z'.read = z.read ++ [(k, x)])
    (houtermost : z'.outermost = z.outermost) : Leads debug d k x s' z
  | ends {p : ℕ} {ds : List (List UInt8 × Bencoding)} (hk : k = .endOfDictionary) (hx : x = .none) :
    Leads debug d k x s' (.root p ds)
  | error {b : Bool} {z : Zipper b} (ha : action (top z.stack) k = .error) : Leads debug d k x s' z

theorem leads_key (s' : Scanner) {z : Zipper false} (h : Represents d z) (hx : Typed k x) : Leads debug d k x s' z := by
  cases k with
  | string =>
    obtain ⟨w, rfl⟩ := hx
    have hkey := goes_key debug (d := d.lexed (.string w) s') (w := w) z rfl
    exact .follows hkey (represents_key (represents_lexed _ _ h rfl)) rfl rfl rfl
  | endOfDictionary =>
    obtain rfl : x = .none := hx
    cases z with
    | root p ds => exact .ends rfl rfl
    | dictionary p ds outer =>
      obtain ⟨d', hgoes, hd', hscanner⟩ := goes_dictionaryEnd debug (v := .none)
        (represents_lexed .none s' h rfl)
      refine .follows hgoes hd' hscanner ?_ (Zipper.outermost_plug _ _)
      rw [Zipper.read_plug]
      simp [Zipper.read, tokens]
  | _ =>
    refine .error ?_
    cases z with
    | root p ds => rfl
    | dictionary p ds outer => cases outer <;> rfl

theorem leads_value (s' : Scanner) {z : Zipper true} (h : Represents d z) (hx : Typed k x) : Leads debug d k x s' z := by
  cases k with
  | string =>
    obtain ⟨w, rfl⟩ := hx
    obtain ⟨d', hgoes, hd', hscanner⟩ := goes_string debug
      (represents_lexed (.string w) s' h rfl) w
    exact .follows hgoes hd' hscanner (Zipper.read_plug _ _) (Zipper.outermost_plug _ _)
  | integer =>
    obtain ⟨i, rfl⟩ := hx
    obtain ⟨d', hgoes, hd', hscanner⟩ := goes_integer debug
      (represents_lexed (.integer i) s' h rfl) i
    exact .follows hgoes hd' hscanner (Zipper.read_plug _ _) (Zipper.outermost_plug _ _)
  | list =>
    obtain rfl : x = .list := hx
    obtain ⟨d', hgoes, hd', hscanner⟩ := goes_list debug (d := d.lexed .list s')
      (follows_lexed h.follows) (holds_new h.holds _) (by simp [Driver.lexed, Driver.new])
      (by simp [Driver.lexed, Driver.new]) rfl
    exact .follows hgoes hd' hscanner (by simp [Zipper.read, tokensList]) rfl
  | dictionary =>
    obtain rfl : x = .dictionary := hx
    obtain ⟨d', hgoes, hd', hscanner⟩ := goes_dictionary debug (d := d.lexed .dictionary s')
      (follows_lexed h.follows) (holds_new h.holds _) (by simp [Driver.lexed, Driver.new])
      (by simp [Driver.lexed, Driver.new]) rfl
    exact .follows hgoes hd' hscanner (by simp [Zipper.read, tokensEntries]) rfl
  | endOfList =>
    obtain rfl : x = .none := hx
    cases z with
    | key w inner => exact .error rfl
    | list p l outer =>
      obtain ⟨d', hgoes, hd', hscanner⟩ := goes_listEnd debug (v := .none)
        (represents_lexed .none s' h rfl)
      refine .follows hgoes hd' hscanner ?_ (Zipper.outermost_plug _ _)
      rw [Zipper.read_plug]
      simp [Zipper.read, tokens]
  | _ =>
    refine .error ?_
    cases z with
    | key w inner => rfl
    | list p l outer => cases outer <;> rfl

theorem leads (s' : Scanner) {z : Zipper b} (h : Represents d z) (hx : Typed k x) : Leads debug d k x s' z := by
  cases b with
  | false => exact leads_key debug s' h hx
  | true => exact leads_value debug s' h hx

theorem end_of_run {n p : ℕ} {ds : List (List UInt8 × Bencoding)} (h : Finished d p ds)
    (hrun : (parser debug).run n ⟨[(2, v)], .empty, d⟩ = some (.returned .accepted d')) :
    ∃ s', Lexes (scan debug) (enter d.scanner) .end_ .none s' ∧ Finished d' p ds := by
  have hfinal := Parser.read_of_run (by exact (by decide : (2 : ℕ) ≠ 4)) (by rfl) hrun
  rcases hfinal with ⟨k, w, d₁, hread, m, -, hrest⟩ | ⟨f, hf⟩
  · obtain ⟨x, s', hlexes, rfl, rfl⟩ := exists_of_lexes_scanDriver hread
    have hlex : Lexes (scan debug) (enter d.scanner) k x s' := hlexes
    obtain ⟨rfl, rfl⟩ := (halts_token_iff _).1 ⟨m, hrest⟩
    obtain rfl : x = .none := typed_of_lexes hlex
    have hfinished : Finished (d.lexed .none s') p ds := finished_lexed h rfl
    exact ⟨s', hlex, hfinished⟩
  · simp at hf

/-- A run that accepts reads the rest of the tokens of a dictionary, and then the end. -/
theorem yields_of_run {n : ℕ} {z : Zipper b} (h : Represents d z)
    (hrun : (parser debug).run n ⟨z.stack, .empty, d⟩ = some (.returned .accepted d')) :
    ∃ ts ds s₁ s₂, Yields enter (scan debug) d.scanner ts s₁ ∧
      Lexes (scan debug) (enter s₁) .end_ .none s₂ ∧ z.read ++ ts = tokens (.dictionary ds) ∧
      Finished d' z.outermost ds := by
  induction n using Nat.strong_induction_on generalizing b z d with
  | _ n ih =>
  rcases Parser.read_of_run z.waits.1 z.waits.2 hrun with ⟨k, v, d₁, hread, m, hm, hrest⟩ | ⟨f, hf⟩
  · obtain ⟨x, s', hlexes, rfl, rfl⟩ := exists_of_lexes_scanDriver hread
    have hlex : Lexes (scan debug) (enter d.scanner) k x s' := hlexes
    have hrest : (parser debug).run m ⟨z.stack, .token k (d.new x).1, d.lexed x s'⟩ =
        some (.returned .accepted d') := hrest
    cases leads debug s' h (typed_of_lexes hlex) with
    | follows hgoes hd' hscanner hread houtermost =>
      obtain ⟨i, hi, hrest⟩ := hgoes.run hrest
      obtain ⟨ts, ds, s₁, s₂, hyields, hend, htokens, hfinished⟩ := ih i (hi.trans_lt hm) hd' hrest
      rw [hscanner] at hyields
      rw [hread, List.append_assoc] at htokens
      exact ⟨_, ds, s₁, s₂, .cons hlex hyields, hend, htokens, houtermost ▸ hfinished⟩
    | @ends p ds hk hx =>
      subst hk hx
      obtain ⟨d₁, hgoes, hd₁, hscanner⟩ := goes_end debug (v := .none)
        (represents_lexed .none s' h rfl)
      obtain ⟨i, -, hrest⟩ := hgoes.run hrest
      obtain ⟨s₂, hend, hfinished⟩ := end_of_run _ hd₁ hrest
      rw [hscanner] at hend
      exact ⟨_, ds, s', s₂, .cons hlex (.nil _), hend, rfl, hfinished⟩
    | error ha =>
      have hrejected := (Parser.halts_error z.waits.1 z.waits.2 ha).1 ⟨m, hrest⟩
      simp at hrejected
  · simp at hf

theorem yields_of_halts (h : (parser debug).Halts (Parser.start { scanner := s }) (.returned .accepted d')) :
    ∃ ds s₁ s₂, Yields enter (scan debug) s (tokens (.dictionary ds)) s₁ ∧
      Lexes (scan debug) (enter s₁) .end_ .none s₂ ∧ Finished d' 0 ds := by
  obtain ⟨n, hrun⟩ := h
  have hstart := Parser.read_of_run (by exact (by decide : (0 : ℕ) ≠ 4)) (by rfl) hrun
  rcases hstart with ⟨k, v, d₁, hread, m, -, hrest⟩ | ⟨f, hf⟩
  · obtain ⟨x, s', hlexes, rfl, rfl⟩ := exists_of_lexes_scanDriver hread
    have hlex : Lexes (scan debug) (enter s) k x s' := hlexes
    by_cases hk : k = .dictionary
    · subst hk
      obtain rfl : x = .dictionary := typed_of_lexes hlex
      obtain ⟨d₂, hgoes, hd₂, hscanner⟩ := goes_start debug s s'
      obtain ⟨i, -, hrest⟩ := hgoes.run hrest
      obtain ⟨ts, ds, s₁, s₂, hyields, hend, htokens, hfinished⟩ := yields_of_run _ hd₂ hrest
      rw [hscanner] at hyields
      have hall : (Token.dictionary, Lexeme.dictionary) :: ts = tokens (.dictionary ds) := htokens
      have hcons := Yields.cons hlex hyields
      rw [hall] at hcons
      exact ⟨ds, s₁, s₂, hcons, hend, hfinished⟩
    · have herror : action 0 k = .error := by cases k <;> simp_all [action]
      have hrejected := (Parser.halts_error (by exact (by decide : (0 : ℕ) ≠ 4)) (by rfl)
        herror).1 ⟨m, hrest⟩
      simp at hrejected
  · simp at hf

variable {debug} in
theorem accepts_iff {file : List UInt8} {t : Bencoding} :
    Accepts debug file t ↔ t.isDictionary = true ∧ ∃ s s',
      Yields enter (scan debug) { buffer := file } (tokens t) s ∧
        Lexes (scan debug) (enter s) .end_ .none s' := by
  constructor
  · rintro ⟨d, p, hhalts, hrecords, hreads⟩
    obtain ⟨ds, s₁, s₂, hyields, hend, hfinished⟩ := yields_of_halts _ hhalts
    obtain rfl : 0 = p := by simpa [hrecords] using hfinished.records.symm
    obtain rfl := Heap.reads_unique t _ _ hreads hfinished.reads
    exact ⟨rfl, s₁, s₂, hyields, hend⟩
  · rintro ⟨hdictionary, s, s', hyields, hend⟩
    cases t with
    | dictionary ds =>
      obtain ⟨d, hhalts, hfinished⟩ := halts_of_yields _ hyields hend
      exact ⟨d, 0, hhalts, hfinished.records, hfinished.reads⟩
    | _ => simp [Bencoding.isDictionary] at hdictionary

end ACENetwork.BitTorrent.MetaInfo
