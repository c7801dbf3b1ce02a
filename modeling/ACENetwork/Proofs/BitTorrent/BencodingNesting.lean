import Mathlib
import ACENetwork.Proofs.BitTorrent.BencodingScanner

/-! The start conditions against the nesting of the containers. A list that is an element of a
list is the one container that the scanner does not push a condition for, so its end pops the
condition of the list around it. -/

namespace ACENetwork.BitTorrent.MetaInfo

open Flex Bison

variable {debug : Bool} {s s' : Scanner} {c c' : Start} {stack : List Start} {n : UInt32}
  {b rest w : List UInt8} {k : Token} {x : Lexeme} {ts ts' : List (Token × Lexeme)}

mutual

theorem tokens_cancel : ∀ t t' : Bencoding, ∀ ts ts', tokens t ++ ts = tokens t' ++ ts' → t = t' ∧ ts = ts'
  | .string w, t', ts, ts', h => by
    cases t' <;> simp_all [tokens]
  | .integer i, t', ts, ts', h => by
    cases t' <;> simp_all [tokens]
  | .list l, t', ts, ts', h => by
    cases t' with
    | list l' =>
      simp only [tokens, List.cons_append, List.cons.injEq, true_and, List.append_assoc] at h
      obtain ⟨rfl, hts⟩ := tokensList_cancel l l' _ _ h
      exact ⟨rfl, hts⟩
    | _ => simp [tokens] at h
  | .dictionary d, t', ts, ts', h => by
    cases t' with
    | dictionary d' =>
      simp only [tokens, List.cons_append, List.cons.injEq, true_and, List.append_assoc] at h
      obtain ⟨rfl, hts⟩ := tokensEntries_cancel d d' _ _ h
      exact ⟨rfl, hts⟩
    | _ => simp [tokens] at h

theorem tokensList_cancel : ∀ l l' : List Bencoding, ∀ ts ts',
    tokensList l ++ ((.endOfList, .none) :: ts) = tokensList l' ++ ((.endOfList, .none) :: ts') →
      l = l' ∧ ts = ts'
  | [], [], ts, ts', h => by simpa [tokensList] using h
  | [], t' :: l', ts, ts', h => by cases t' <;> simp [tokensList, tokens] at h
  | t :: l, [], ts, ts', h => by cases t <;> simp [tokensList, tokens] at h
  | t :: l, t' :: l', ts, ts', h => by
    simp only [tokensList, List.append_assoc] at h
    obtain ⟨rfl, hl⟩ := tokens_cancel t t' _ _ h
    obtain ⟨rfl, hts⟩ := tokensList_cancel l l' _ _ hl
    exact ⟨rfl, hts⟩

theorem tokensEntries_cancel : ∀ d d' : List (List UInt8 × Bencoding), ∀ ts ts',
    tokensEntries d ++ ((.endOfDictionary, .none) :: ts) =
      tokensEntries d' ++ ((.endOfDictionary, .none) :: ts') → d = d' ∧ ts = ts'
  | [], [], ts, ts', h => by simpa [tokensEntries] using h
  | [], (k', t') :: d', ts, ts', h => by simp [tokensEntries] at h
  | (k, t) :: d, [], ts, ts', h => by simp [tokensEntries] at h
  | (k, t) :: d, (k', t') :: d', ts, ts', h => by
    simp only [tokensEntries, List.cons_append, List.append_assoc, List.cons.injEq, Prod.mk.injEq,
      Lexeme.string.injEq, true_and] at h
    obtain ⟨rfl, ht⟩ := h
    obtain ⟨rfl, hd⟩ := tokens_cancel t t' _ _ ht
    obtain ⟨rfl, hts⟩ := tokensEntries_cancel d d' _ _ hd
    exact ⟨rfl, hts⟩

end

/-- The conditions of containers. The others are pushed on top of these. -/
def Start.nests (c : Start) : Bool := decide (c ≠ .string ∧ c ≠ .integer)

/-- For every container that the scanner is in, whether it is a list. -/
def Scanner.lists (s : Scanner) : List Bool :=
  ((s.start :: s.stack).filter Start.nests).map fun c => decide (c = .list)

structure Scanner.Nested (s : Scanner) : Prop where
  stack : ∀ c ∈ s.stack, c.nests = true
  start : s.start.nests = true ∨ s.stack ≠ []

def effect : Token → List Bool → List Bool
  | .dictionary, ks => false :: ks
  | .list, ks => if ks.head? = some true then ks else true :: ks
  | .endOfList, ks | .endOfDictionary, ks => ks.tail
  | _, ks => ks

theorem Scanner.Nested.lists_ne_nil (h : s.Nested) : s.lists ≠ [] := by
  unfold Scanner.lists
  rcases h.start with hstart | hstack
  · simp [hstart]
  · obtain ⟨c, stack, hcons⟩ := List.exists_cons_of_ne_nil hstack
    have hc : c.nests = true := h.stack c (by simp [hcons])
    intro hnil
    rw [hcons] at hnil
    have := List.map_eq_nil_iff.1 hnil
    rw [List.filter_eq_nil_iff] at this
    exact this c (by simp) hc

theorem Start.nests_of_next (h : c.next = some c') : c.nests = true ∧ c'.nests = true := by
  cases c <;> simp [Start.next] at h <;> subst h <;> decide

theorem Moves.nested_of_more (h : Moves s (.more s')) (hs : s.Nested) : s'.Nested ∧ s'.lists = s.lists := by
  obtain ⟨hstack, hstart⟩ := hs
  cases h with
  | stay => exact ⟨⟨hstack, hstart⟩, rfl⟩
  | integerEnd =>
    rename_i c stack b b' n
    have hc : c.nests = true := hstack c List.mem_cons_self
    refine ⟨⟨fun c' hc' => hstack c' (List.mem_cons_of_mem _ hc'), Or.inl hc⟩, ?_⟩
    simp [Scanner.lists, Start.nests]
  | push hc hc'' =>
    rename_i c c' c'' stack b b' n
    obtain ⟨hnests, hnests'⟩ := Start.nests_of_next hc
    have hpushed : c''.nests = false := by rcases hc'' with rfl | rfl <;> rfl
    have hkind : (decide (c' = .list)) = decide (c = .list) := by
      cases c <;> simp [Start.next] at hc <;> subst hc <;> rfl
    refine ⟨⟨?_, Or.inr (by simp)⟩, by simp [Scanner.lists, hnests, hnests', hpushed, hkind]⟩
    intro a ha
    rcases List.mem_cons.1 ha with rfl | ha
    · exact hnests'
    · exact hstack a ha

theorem Moves.nested_of_token (h : Moves s (.token k x s')) (hs : s.Nested) :
    s'.Nested ∧ s'.lists = effect k s.lists := by
  obtain ⟨hstack, hstart⟩ := hs
  have hpop : ∀ c : Start, ∀ stack : List Start, (∀ a ∈ c :: stack, a.nests = true) →
      (∀ a ∈ stack, a.nests = true) ∧ (c.nests = true ∨ stack ≠ []) := by
    intro c stack hall
    exact ⟨fun a ha => hall a (List.mem_cons_of_mem _ ha), Or.inl (hall c List.mem_cons_self)⟩
  cases h with
  | end_ => exact ⟨⟨hstack, hstart⟩, rfl⟩
  | string w =>
    obtain ⟨h₁, h₂⟩ := hpop _ _ hstack
    refine ⟨⟨h₁, h₂⟩, ?_⟩
    simp [Scanner.lists, effect, Start.nests]
  | integer yytext => exact ⟨⟨hstack, hstart⟩, rfl⟩
  | dictionary hc =>
    rename_i c c' stack b b' n
    obtain ⟨hnests, hnests'⟩ : c.nests = true ∧ c'.nests = true := by
      rcases hc with hc | ⟨rfl, rfl⟩
      · exact Start.nests_of_next hc
      · exact ⟨rfl, rfl⟩
    have hkind : (decide (c' = .list)) = decide (c = .list) := by
      rcases hc with hc | ⟨rfl, rfl⟩
      · cases c <;> simp [Start.next] at hc <;> subst hc <;> rfl
      · rfl
    have hkey : Start.dictionaryKey.nests = true := rfl
    refine ⟨⟨?_, Or.inl hkey⟩, by simp [Scanner.lists, effect, hnests, hnests', hkind, hkey]⟩
    intro a ha
    rcases List.mem_cons.1 ha with rfl | ha
    · exact hnests'
    · exact hstack a ha
  | list =>
    refine ⟨⟨?_, Or.inl rfl⟩, by simp [Scanner.lists, effect, Start.nests]⟩
    intro a ha
    rcases List.mem_cons.1 ha with rfl | ha
    · rfl
    · exact hstack a ha
  | listInList => exact ⟨⟨hstack, Or.inl rfl⟩, by simp [Scanner.lists, effect, Start.nests]⟩
  | listEnd =>
    obtain ⟨h₁, h₂⟩ := hpop _ _ hstack
    refine ⟨⟨h₁, h₂⟩, ?_⟩
    simp [Scanner.lists, effect, Start.nests]
  | keyEnd =>
    obtain ⟨h₁, h₂⟩ := hpop _ _ hstack
    refine ⟨⟨h₁, h₂⟩, ?_⟩
    simp [Scanner.lists, effect, Start.nests]

theorem nested_of_lexes (h : Lexes (scan debug) s k x s') (hs : s.Nested) :
    s'.Nested ∧ s'.lists = effect k s.lists := by
  induction h with
  | token hscan => exact (moves_of_scan hscan).nested_of_token hs
  | more hscan _ ih =>
    obtain ⟨hnested, hlists⟩ := (moves_of_scan hscan).nested_of_more hs
    obtain ⟨hnested', hlists'⟩ := ih hnested
    exact ⟨hnested', by rw [hlists', hlists]⟩

theorem nested_of_yields (h : Yields enter (scan debug) s ts s') (hs : s.Nested) :
    s'.Nested ∧ s'.lists = ts.foldl (fun ks t => effect t.1 ks) s.lists := by
  induction h with
  | nil => exact ⟨hs, rfl⟩
  | cons hlex _ ih =>
    obtain ⟨hnested, hlists⟩ := nested_of_lexes hlex ⟨hs.stack, hs.start⟩
    obtain ⟨hnested', hlists'⟩ := ih hnested
    exact ⟨hnested', by rw [hlists', hlists]; rfl⟩

/-- No list is an element of a list. -/
def flat : Bencoding.Allowed where
  string := fun _ => True
  integer := fun _ => True
  element := fun t => t.isList = false

def effects (ts : List (Token × Lexeme)) (ks : List Bool) : List Bool :=
  ts.foldl (fun ks t => effect t.1 ks) ks

theorem effects_append (ks : List Bool) : effects (ts ++ ts') ks = effects ts' (effects ts ks) :=
  List.foldl_append

theorem effects_cons (t : Token × Lexeme) (ks : List Bool) :
    effects (t :: ts) ks = effects ts (effect t.1 ks) := rfl

mutual

/-- A value leaves too few conditions behind, or it is flat and not a list in a list. -/
theorem effects_tokens : ∀ t : Bencoding, ∀ ks, ∃ j, effects (tokens t) ks = ks.drop j ∧
    (j = 0 → t.All flat ∧ (ks.head? = some true → t.isList = false))
  | .string w, ks => ⟨0, rfl, fun _ => ⟨trivial, fun _ => rfl⟩⟩
  | .integer i, ks => ⟨0, rfl, fun _ => ⟨trivial, fun _ => rfl⟩⟩
  | .list l, ks => by
    rw [tokens, effects_cons, effects_append]
    by_cases hks : ks.head? = some true
    · obtain ⟨j, hj, -⟩ := effects_tokensList l ks
      have hpush : effect .list ks = ks := if_pos hks
      refine ⟨j + 1, ?_, by omega⟩
      rw [hpush, hj]
      exact List.tail_drop
    · obtain ⟨j, hj, hflat⟩ := effects_tokensList l (true :: ks)
      have hpush : effect .list ks = true :: ks := if_neg hks
      refine ⟨j, ?_, fun h0 => ⟨hflat h0 rfl, fun h => absurd h hks⟩⟩
      rw [hpush, hj]
      exact List.tail_drop
  | .dictionary d, ks => by
    obtain ⟨j, hj, hflat⟩ := effects_tokensEntries d (false :: ks)
    refine ⟨j, ?_, fun h0 => ⟨hflat h0, fun _ => rfl⟩⟩
    rw [tokens, effects_cons, effects_append]
    have hpush : effect .dictionary ks = false :: ks := rfl
    rw [hpush, hj]
    exact List.tail_drop

theorem effects_tokensList : ∀ l : List Bencoding, ∀ ks, ∃ j, effects (tokensList l) ks = ks.drop j ∧
    (j = 0 → ks.head? = some true → Bencoding.AllElements flat l)
  | [], ks => ⟨0, rfl, fun _ _ => trivial⟩
  | t :: l, ks => by
    obtain ⟨i, hi, ht⟩ := effects_tokens t ks
    obtain ⟨j, hj, hl⟩ := effects_tokensList l (ks.drop i)
    refine ⟨i + j, ?_, fun h0 htop => ?_⟩
    · rw [tokensList, effects_append, hi, hj, List.drop_drop]
    · obtain ⟨rfl, rfl⟩ : i = 0 ∧ j = 0 := by omega
      exact ⟨⟨(ht rfl).2 htop, (ht rfl).1⟩, hl rfl htop⟩

theorem effects_tokensEntries : ∀ d : List (List UInt8 × Bencoding), ∀ ks, ∃ j,
    effects (tokensEntries d) ks = ks.drop j ∧ (j = 0 → Bencoding.AllEntries flat d)
  | [], ks => ⟨0, rfl, fun _ => trivial⟩
  | (k, t) :: d, ks => by
    obtain ⟨i, hi, ht⟩ := effects_tokens t ks
    obtain ⟨j, hj, hd⟩ := effects_tokensEntries d (ks.drop i)
    refine ⟨i + j, ?_, fun h0 => ?_⟩
    · have hkey : effect .string ks = ks := rfl
      rw [tokensEntries, effects_cons, effects_append, hkey, hi, hj, List.drop_drop]
    · obtain ⟨rfl, rfl⟩ : i = 0 ∧ j = 0 := by omega
      exact ⟨⟨trivial, (ht rfl).1⟩, hd rfl⟩

end

/-- A file whose tokens are those of a value has no list as an element of a list. -/
theorem flat_of_yields {t : Bencoding} (h : Yields enter (scan debug) { buffer := b } (tokens t) s') :
    t.All flat := by
  have hinit : Scanner.Nested { buffer := b } := ⟨by simp, Or.inl rfl⟩
  obtain ⟨hnested, hlists⟩ := nested_of_yields h hinit
  obtain ⟨j, hj, hflat⟩ := effects_tokens t [false]
  have hdrop : s'.lists = [false].drop j := hlists.trans hj
  have hne := hnested.lists_ne_nil
  apply (hflat _).1
  by_contra hj0
  rw [hdrop] at hne
  exact hne (List.drop_of_length_le (by simp; omega))

/-- What is next for the scanner, which may be at the end of an integer still. -/
def At (s : Scanner) (c : Start) (stack : List Start) (b : List UInt8) : Prop :=
  ∃ n, s = ⟨c, stack, b, n⟩ ∨ s = ⟨.integer, c :: stack, 101 :: b, n⟩

theorem At.lexes_iff (h : At s c stack b) :
    Lexes (scan debug) (enter s) k x s' ↔ Lexes (scan debug) ⟨c, stack, b, 0⟩ k x s' := by
  obtain ⟨n, rfl | rfl⟩ := h
  · rfl
  · exact (Within.more scan_integerEnd (.refl _)).lexes_iff

theorem At.cons_iff (h : At s c stack b) {s₁ : Scanner} {k₁ : Token} {x₁ : Lexeme}
    (hlex : Lexes (scan debug) ⟨c, stack, b, 0⟩ k₁ x₁ s₁) :
    Yields enter (scan debug) s ((k, x) :: ts) s' ↔
      k = k₁ ∧ x = x₁ ∧ Yields enter (scan debug) s₁ ts s' :=
  yields_cons_iff (h.lexes_iff.2 hlex)

theorem lexes_digits (hc : c.next = some c') (hkey : c ≠ .dictionaryKey) (hw : w ≠ [])
    (hdigits : ∀ a ∈ w, isDigit a = true) :
    Lexes (scan debug) ⟨c, stack, 105 :: (w ++ 101 :: b), n⟩ .integer (.integer (toInt64 w))
      ⟨.integer, c' :: stack, 101 :: b, n⟩ := by
  apply Lexes.more (scan_integerStart hc hkey)
  apply Lexes.more scan_integerBegin
  apply Lexes.token
  exact scan_integerDigits hw hdigits (by simp [isDigit])

theorem lexes_integer (hc : c.next = some c') (hkey : c ≠ .dictionaryKey) (i : ℤ) :
    Lexes (scan debug) ⟨c, stack, 105 :: (decimal i ++ 101 :: b), n⟩ .integer
      (.integer (toInt64 (decimal i))) ⟨.integer, c' :: stack, 101 :: b, n⟩ :=
  lexes_digits hc hkey (decimal_ne_nil i) fun _ => isDigit_of_mem_decimal

theorem lexes_listEnd (h : At s .list (c :: stack) (101 :: b)) :
    Lexes (scan debug) (enter s) .endOfList .none ⟨c, stack, b, 0⟩ :=
  h.lexes_iff.2 (.token scan_listEnd)

theorem lexes_keyEnd (h : At s .dictionaryKey (c :: stack) (101 :: b)) :
    Lexes (scan debug) (enter s) .endOfDictionary .none ⟨c, stack, b, 0⟩ :=
  h.lexes_iff.2 (.token scan_keyEnd)

theorem toInt64_eq_iff (i : ℤ) : toInt64 (decimal i) = i ↔ Fits i := by
  rw [toInt64_decimal]
  unfold Fits
  omega

/-- The entries of a dictionary are read as they are. -/
def YieldsEntries (debug : Bool) (d : List (List UInt8 × Bencoding)) : Prop :=
  ∀ s stack rest, At s .dictionaryKey stack (Bencoding.encodeEntries d ++ rest) →
    ∃ s', Yields enter (scan debug) s (tokensEntries d) s' ∧ At s' .dictionaryKey stack rest

theorem yields_dictionary {d : List (List UInt8 × Bencoding)} (hd : YieldsEntries debug d)
    (hlex : Lexes (scan debug) (enter s) .dictionary .dictionary
      ⟨.dictionaryKey, c :: stack, Bencoding.encodeEntries d ++ 101 :: rest, 0⟩) :
    Yields enter (scan debug) s (tokens (.dictionary d)) ⟨c, stack, rest, 0⟩ := by
  obtain ⟨s', hyields, hat⟩ := hd _ (c :: stack) (101 :: rest) ⟨0, Or.inl rfl⟩
  apply Yields.cons hlex
  rw [yields_append_iff]
  exact ⟨s', hyields, .cons (lexes_keyEnd hat) (.nil _)⟩

mutual

theorem yields_of_scannable : ∀ t : Bencoding, t.All Scannable → ∀ {c c' : Start}, c.next = some c' →
    c ≠ .dictionaryKey → (c = .list → t.isList = false) → ∀ s stack rest,
      At s c stack (t.encode ++ rest) →
        ∃ s', Yields enter (scan debug) s (tokens t) s' ∧ At s' c' stack rest
  | .string w, ht, c, c', hc, hkey, hlist, s, stack, rest, hat => by
    obtain ⟨hplain, hshort⟩ := ht
    have hlex : Lexes (scan debug) (enter s) .string (.string w) ⟨c', stack, rest, _⟩ :=
      hat.lexes_iff.2 (lexes_string hc hplain hshort)
    exact ⟨_, .cons hlex (.nil _), ⟨_, Or.inl rfl⟩⟩
  | .integer i, ht, c, c', hc, hkey, hlist, s, stack, rest, hat => by
    have hi : toInt64 (decimal i) = i := (toInt64_eq_iff i).2 ht
    rw [Bencoding.encode, List.cons_append, List.append_assoc] at hat
    have hlex : Lexes (scan debug) (enter s) .integer (.integer (toInt64 (decimal i)))
        ⟨.integer, c' :: stack, 101 :: rest, 0⟩ := hat.lexes_iff.2 (lexes_integer hc hkey i)
    rw [hi] at hlex
    exact ⟨_, .cons hlex (.nil _), ⟨_, Or.inr rfl⟩⟩
  | .list l, ht, c, c', hc, hkey, hlist, s, stack, rest, hat => by
    obtain rfl : c = .dictionaryValue := by
      cases c <;> simp_all [Start.next, Bencoding.isList]
    obtain rfl := Option.some.inj hc
    rw [Bencoding.encode, List.cons_append, List.append_assoc] at hat
    have hopen : Lexes (scan debug) (enter s) .list .list ⟨.list, .dictionaryKey :: stack, _, 0⟩ :=
      hat.lexes_iff.2 (.token scan_valueList)
    obtain ⟨s', hyields, hat'⟩ := yields_of_scannable_list l ht _ _ _ ⟨0, Or.inl rfl⟩
    refine ⟨⟨.dictionaryKey, stack, rest, 0⟩, .cons hopen ?_, ⟨0, Or.inl rfl⟩⟩
    rw [yields_append_iff]
    exact ⟨s', hyields, .cons (lexes_listEnd hat') (.nil _)⟩
  | .dictionary d, ht, c, c', hc, hkey, hlist, s, stack, rest, hat => by
    rw [Bencoding.encode, List.cons_append, List.append_assoc] at hat
    have hopen : Lexes (scan debug) (enter s) .dictionary .dictionary
        ⟨.dictionaryKey, c' :: stack, _, 0⟩ := hat.lexes_iff.2 (.token (scan_dictionary hc hkey))
    exact ⟨_, yields_dictionary (yields_of_scannable_entries d ht) hopen, ⟨_, Or.inl rfl⟩⟩

theorem yields_of_scannable_list : ∀ l : List Bencoding, Bencoding.AllElements Scannable l →
    ∀ s stack rest, At s .list stack (Bencoding.encodeList l ++ rest) →
      ∃ s', Yields enter (scan debug) s (tokensList l) s' ∧ At s' .list stack rest
  | [], _, s, stack, rest, hat => ⟨s, .nil s, hat⟩
  | t :: l, hl, s, stack, rest, hat => by
    obtain ⟨⟨hlist, ht⟩, hl⟩ := hl
    rw [Bencoding.encodeList, List.append_assoc] at hat
    obtain ⟨s₁, hyields₁, hat₁⟩ := yields_of_scannable t ht rfl (by decide) (fun _ => hlist) _ _ _ hat
    obtain ⟨s₂, hyields₂, hat₂⟩ := yields_of_scannable_list l hl _ _ _ hat₁
    exact ⟨s₂, yields_append_iff.2 ⟨s₁, hyields₁, hyields₂⟩, hat₂⟩

theorem yields_of_scannable_entries : ∀ d : List (List UInt8 × Bencoding),
    Bencoding.AllEntries Scannable d → YieldsEntries debug d
  | [], _, s, stack, rest, hat => ⟨s, .nil s, hat⟩
  | (w, t) :: d, hd, s, stack, rest, hat => by
    obtain ⟨⟨⟨hplain, hshort⟩, ht⟩, hd⟩ := hd
    rw [Bencoding.encodeEntries, List.append_assoc, List.append_assoc] at hat
    have hlex : Lexes (scan debug) (enter s) .string (.string w) ⟨.dictionaryValue, stack, _, _⟩ :=
      hat.lexes_iff.2 (lexes_string rfl hplain hshort)
    obtain ⟨s₁, hyields₁, hat₁⟩ :=
      yields_of_scannable t ht (c := .dictionaryValue) rfl (by decide) (fun h => absurd h (by decide))
        _ _ _ ⟨_, Or.inl rfl⟩
    obtain ⟨s₂, hyields₂, hat₂⟩ := yields_of_scannable_entries d hd _ _ _ hat₁
    exact ⟨s₂, .cons hlex (yields_append_iff.2 ⟨s₁, hyields₁, hyields₂⟩), hat₂⟩

end

/-- A length that does not fit stands for a string that is shorter. -/
theorem short_of_lexes (hc : c.next = some c') (hplain : Plain w)
    (h : Lexes (scan debug) ⟨c, stack, encodeString w ++ rest, n⟩ k (.string w) s') : Short w := by
  by_contra hlong
  unfold Short at hlong
  obtain ⟨a, v, rfl⟩ : ∃ a v, w = a :: v := List.exists_cons_of_length_pos (by omega)
  obtain ⟨ha, hcolon⟩ := hplain a rfl
  have hlength : toLength (digits (a :: v).length) = 0xFFFFFFFF := by
    rw [toLength_digits, if_pos (by omega)]
  unfold encodeString at h
  rw [List.append_assoc, List.cons_append] at h
  have hdigits := (within_string hc _).lexes_iff.1 h
  rw [hlength] at hdigits
  have hmore : scan debug ⟨.string, c' :: stack, 58 :: ((a :: v) ++ rest), 0xFFFFFFFF⟩ =
      .more ⟨.string, c' :: stack, (a :: v) ++ rest, 0xFFFFFFFF⟩ := by
    rw [scan_stringColon, if_neg (by decide)]
  have hcontent := (Within.more hmore (.refl _)).lexes_iff.1 hdigits
  cases hcontent with
  | token hscan =>
    rw [List.cons_append, scan_stringContent ha hcolon] at hscan
    obtain ⟨u, hu, hulength⟩ := content_token hscan
    have hlen := congrArg List.length hu
    have hpred : (0xFFFFFFFF - 1 : UInt32).toNat = 2 ^ 32 - 2 := by decide
    rw [hpred] at hulength
    simp [hulength] at hlen
    simp at hlong
    omega
  | more hscan _ =>
    rw [List.cons_append, scan_stringContent ha hcolon] at hscan
    exact absurd hscan content_ne_more

mutual

theorem scannable_of_yields : ∀ t : Bencoding, t.All flat → ∀ {c c' : Start}, c.next = some c' →
    c ≠ .dictionaryKey → (c = .list → t.isList = false) → ∀ s stack rest s',
      At s c stack (t.encode ++ rest) → Yields enter (scan debug) s (tokens t) s' → t.All Scannable
  | .string w, _, c, c', hc, hkey, hlist, s, stack, rest, s', hat, h => by
    cases h with
    | cons hlex _ =>
      have hplain := plain_of_lexes hlex
      exact ⟨hplain, short_of_lexes hc hplain (hat.lexes_iff.1 hlex)⟩
  | .integer i, _, c, c', hc, hkey, hlist, s, stack, rest, s', hat, h => by
    rw [Bencoding.encode, List.cons_append, List.append_assoc] at hat
    obtain ⟨-, hi, -⟩ := (hat.cons_iff (lexes_integer hc hkey i)).1 h
    exact (toInt64_eq_iff i).1 (Lexeme.integer.inj hi).symm
  | .list l, hflat, c, c', hc, hkey, hlist, s, stack, rest, s', hat, h => by
    obtain rfl : c = .dictionaryValue := by
      cases c <;> simp_all [Start.next, Bencoding.isList]
    rw [Bencoding.encode, List.cons_append, List.append_assoc] at hat
    obtain ⟨-, -, h⟩ := (hat.cons_iff (.token scan_valueList)).1 h
    obtain ⟨s₁, h₁, -⟩ := yields_append_iff.1 h
    exact scannable_of_yields_list l hflat _ _ _ _ ⟨0, Or.inl rfl⟩ h₁
  | .dictionary d, hflat, c, c', hc, hkey, hlist, s, stack, rest, s', hat, h => by
    rw [Bencoding.encode, List.cons_append, List.append_assoc] at hat
    obtain ⟨-, -, h⟩ := (hat.cons_iff (.token (scan_dictionary hc hkey))).1 h
    obtain ⟨s₁, h₁, -⟩ := yields_append_iff.1 h
    exact scannable_of_yields_entries d hflat _ _ _ _ ⟨0, Or.inl rfl⟩ h₁

theorem scannable_of_yields_list : ∀ l : List Bencoding, Bencoding.AllElements flat l →
    ∀ s stack rest s', At s .list stack (Bencoding.encodeList l ++ rest) →
      Yields enter (scan debug) s (tokensList l) s' → Bencoding.AllElements Scannable l
  | [], _, _, _, _, _, _, _ => trivial
  | t :: l, hflat, s, stack, rest, s', hat, h => by
    obtain ⟨⟨hlist, ht⟩, hl⟩ := hflat
    rw [Bencoding.encodeList, List.append_assoc] at hat
    obtain ⟨s₁, h₁, h₂⟩ := yields_append_iff.1 h
    have hscannable := scannable_of_yields t ht rfl (by decide) (fun _ => hlist) _ _ _ _ hat h₁
    obtain ⟨s₂, hyields, hat₂⟩ :=
      yields_of_scannable t hscannable rfl (by decide) (fun _ => hlist) _ _ _ hat
    obtain rfl := hyields.unique h₁
    exact ⟨⟨hlist, hscannable⟩, scannable_of_yields_list l hl _ _ _ _ hat₂ h₂⟩

theorem scannable_of_yields_entries : ∀ d : List (List UInt8 × Bencoding),
    Bencoding.AllEntries flat d → ∀ s stack rest s',
      At s .dictionaryKey stack (Bencoding.encodeEntries d ++ rest) →
        Yields enter (scan debug) s (tokensEntries d) s' → Bencoding.AllEntries Scannable d
  | [], _, _, _, _, _, _, _ => trivial
  | (w, t) :: d, hflat, s, stack, rest, s', hat, h => by
    obtain ⟨⟨-, ht⟩, hd⟩ := hflat
    rw [Bencoding.encodeEntries, List.append_assoc, List.append_assoc] at hat
    cases h with
    | cons hlex h =>
      have hplain := plain_of_lexes hlex
      have hshort := short_of_lexes (c := .dictionaryKey) rfl hplain (hat.lexes_iff.1 hlex)
      obtain ⟨-, -, rfl⟩ := (hat.lexes_iff.1 hlex).unique (lexes_string rfl hplain hshort)
      obtain ⟨s₁, h₁, h₂⟩ := yields_append_iff.1 h
      have hvalue : Start.dictionaryValue = .list → t.isList = false := fun h => absurd h (by decide)
      have hscannable := scannable_of_yields t ht rfl (by decide) hvalue _ _ _ _ ⟨_, Or.inl rfl⟩ h₁
      obtain ⟨s₂, hyields, hat₂⟩ :=
        yields_of_scannable t hscannable rfl (by decide) hvalue _ _ _ ⟨_, Or.inl rfl⟩
      obtain rfl := hyields.unique h₁
      exact ⟨⟨⟨hplain, hshort⟩, hscannable⟩, scannable_of_yields_entries d hd _ _ _ _ hat₂ h₂⟩

end

end ACENetwork.BitTorrent.MetaInfo
