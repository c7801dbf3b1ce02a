import Mathlib
import ACENetwork.Proofs.BitTorrent.BencodingNesting

/-! The containers that the parser is in, as a zipper, and the objects that are the part of the
tree read so far. A container is created behind everything that was read before it, so what
is added to it leaves that alone. -/

namespace ACENetwork.BitTorrent.MetaInfo

namespace Heap

variable {h h' : Heap} {lo hi lo' hi' p : ℕ} {e : Element} {t : Bencoding} {es : List Element}
  {l : List Bencoding} {k : List UInt8} {ds : List (List UInt8 × Element)}
  {d : List (List UInt8 × Bencoding)}

/-- The heaps have the same objects from `lo` on and below `hi`. -/
def Agrees (h : Heap) (lo hi : ℕ) (h' : Heap) : Prop := ∀ i, lo ≤ i → i < hi → h'[i]? = h[i]?

/-- The tree lies there. -/
def Owns (h : Heap) (lo hi : ℕ) (e : Element) (t : Bencoding) : Prop :=
  ∀ h', h.Agrees lo hi h' → h'.Reads e t

def OwnsAll (h : Heap) (lo hi : ℕ) (es : List Element) (l : List Bencoding) : Prop :=
  ∀ h', h.Agrees lo hi h' → h'.ReadsAll es l

def OwnsEntries (h : Heap) (lo hi : ℕ) (ds : List (List UInt8 × Element))
    (d : List (List UInt8 × Bencoding)) : Prop :=
  ∀ h', h.Agrees lo hi h' → h'.ReadsEntries ds d

theorem Agrees.refl (h : Heap) : h.Agrees lo hi h := fun _ _ _ => rfl

theorem Agrees.trans {h'' : Heap} (h₁ : h.Agrees lo hi h') (h₂ : h'.Agrees lo hi h'') :
    h.Agrees lo hi h'' := fun i hlo hhi => (h₂ i hlo hhi).trans (h₁ i hlo hhi)

theorem Agrees.mono (hagrees : h.Agrees lo hi h') (hlo : lo ≤ lo') (hhi : hi' ≤ hi) :
    h.Agrees lo' hi' h' := fun i hi₁ hi₂ => hagrees i (hlo.trans hi₁) (hi₂.trans_le hhi)

theorem agrees_append {o : Object} (hhi : hi ≤ h.length) : h.Agrees lo hi (h ++ [o]) := by
  intro i _ hi'
  rw [List.getElem?_append_left (hi'.trans_le hhi)]

theorem agrees_modify {f : Object → Object} (hp : p < lo ∨ hi ≤ p) : h.Agrees lo hi (h.modify p f) := by
  intro i hlo hhi
  exact List.getElem?_modify_ne f h (by omega)

theorem pushBackList_self (hp : h[p]? = some (.list es)) :
    (h.pushBackList p e)[p]? = some (.list (es ++ [e])) := by
  unfold pushBackList
  rw [List.getElem?_modify_eq, hp]
  rfl

theorem pushBackDictionary_self (hp : h[p]? = some (.dictionary ds)) :
    (h.pushBackDictionary p k e)[p]? = some (.dictionary (ds ++ [(k, e)])) := by
  unfold pushBackDictionary
  rw [List.getElem?_modify_eq, hp]
  rfl

theorem Owns.reads (howns : h.Owns lo hi e t) : h.Reads e t := howns h (.refl h)

theorem Owns.congr (howns : h.Owns lo hi e t) (hagrees : h.Agrees lo hi h') : h'.Owns lo hi e t :=
  fun _ h₂ => howns _ (hagrees.trans h₂)

theorem OwnsAll.congr (howns : h.OwnsAll lo hi es l) (hagrees : h.Agrees lo hi h') :
    h'.OwnsAll lo hi es l := fun _ h₂ => howns _ (hagrees.trans h₂)

theorem OwnsEntries.congr (howns : h.OwnsEntries lo hi ds d) (hagrees : h.Agrees lo hi h') :
    h'.OwnsEntries lo hi ds d := fun _ h₂ => howns _ (hagrees.trans h₂)

theorem Owns.mono (howns : h.Owns lo hi e t) (hlo : lo' ≤ lo) (hhi : hi ≤ hi') : h.Owns lo' hi' e t :=
  fun _ h₂ => howns _ (h₂.mono hlo hhi)

theorem OwnsAll.mono (howns : h.OwnsAll lo hi es l) (hhi : hi ≤ hi') : h.OwnsAll lo hi' es l :=
  fun _ h₂ => howns _ (h₂.mono le_rfl hhi)

theorem OwnsEntries.mono (howns : h.OwnsEntries lo hi ds d) (hhi : hi ≤ hi') :
    h.OwnsEntries lo hi' ds d := fun _ h₂ => howns _ (h₂.mono le_rfl hhi)

mutual

/-- An element is the root of one tree. -/
theorem reads_unique : ∀ (t t' : Bencoding) (e : Element), h.Reads e t → h.Reads e t' → t = t'
  | .string w, t', e, ht, ht' => by
    obtain rfl : e = .string w := by simpa [Reads] using ht
    cases t' <;> simp [Reads] at ht' ⊢
    exact ht'
  | .integer i, t', e, ht, ht' => by
    obtain rfl : e = .integer i := by simpa [Reads] using ht
    cases t' <;> simp [Reads] at ht' ⊢
    exact ht'
  | .list l, t', e, ht, ht' => by
    obtain ⟨p, es, rfl, hp, hl⟩ := ht
    cases t' with
    | list l' =>
      obtain ⟨p', es', he, hp', hl'⟩ := ht'
      obtain rfl := Element.list.inj he
      obtain rfl : es = es' := by simpa [hp] using hp'
      rw [readsAll_unique l l' es hl hl']
    | _ => simp [Reads] at ht'
  | .dictionary d, t', e, ht, ht' => by
    obtain ⟨p, ds, rfl, hp, hd⟩ := ht
    cases t' with
    | dictionary d' =>
      obtain ⟨p', ds', he, hp', hd'⟩ := ht'
      obtain rfl := Element.dictionary.inj he
      obtain rfl : ds = ds' := by simpa [hp] using hp'
      rw [readsEntries_unique d d' ds hd hd']
    | _ => simp [Reads] at ht'

theorem readsAll_unique : ∀ (l l' : List Bencoding) (es : List Element), h.ReadsAll es l →
    h.ReadsAll es l' → l = l'
  | [], l', es, hl, hl' => by
    obtain rfl : es = [] := by simpa [ReadsAll] using hl
    cases l' with
    | nil => rfl
    | cons t' l' => simp [ReadsAll] at hl'
  | t :: l, l', es, hl, hl' => by
    obtain ⟨e, es, rfl, ht, hl⟩ := hl
    cases l' with
    | nil => simp [ReadsAll] at hl'
    | cons t' l' =>
      obtain ⟨e', es', hes, ht', hl'⟩ := hl'
      obtain ⟨rfl, rfl⟩ := List.cons.inj hes
      rw [reads_unique t t' e ht ht', readsAll_unique l l' es hl hl']

theorem readsEntries_unique : ∀ (d d' : List (List UInt8 × Bencoding)) (ds : List (List UInt8 × Element)),
    h.ReadsEntries ds d → h.ReadsEntries ds d' → d = d'
  | [], d', ds, hd, hd' => by
    obtain rfl : ds = [] := by simpa [ReadsEntries] using hd
    cases d' with
    | nil => rfl
    | cons entry d' =>
      obtain ⟨k, t⟩ := entry
      simp [ReadsEntries] at hd'
  | (k, t) :: d, d', ds, hd, hd' => by
    obtain ⟨e, ds, rfl, ht, hd⟩ := hd
    cases d' with
    | nil => simp [ReadsEntries] at hd'
    | cons entry d' =>
      obtain ⟨k', t'⟩ := entry
      obtain ⟨e', ds', hds, ht', hd'⟩ := hd'
      obtain ⟨hentry, rfl⟩ := List.cons.inj hds
      obtain ⟨rfl, rfl⟩ := Prod.mk.inj hentry
      rw [reads_unique t t' e ht ht', readsEntries_unique d d' ds hd hd']

end

theorem readsAll_append (hl : h.ReadsAll es l) (he : h.Reads e t) : h.ReadsAll (es ++ [e]) (l ++ [t]) := by
  induction l generalizing es with
  | nil =>
    obtain rfl : es = [] := by simpa [ReadsAll] using hl
    exact ⟨e, [], rfl, he, by simp [ReadsAll]⟩
  | cons t' l ih =>
    obtain ⟨e', es', rfl, he', hl'⟩ := hl
    exact ⟨e', es' ++ [e], rfl, he', ih hl'⟩

theorem readsEntries_append (hd : h.ReadsEntries ds d) (he : h.Reads e t) :
    h.ReadsEntries (ds ++ [(k, e)]) (d ++ [(k, t)]) := by
  induction d generalizing ds with
  | nil =>
    obtain rfl : ds = [] := by simpa [ReadsEntries] using hd
    exact ⟨e, [], rfl, he, by simp [ReadsEntries]⟩
  | cons entry d ih =>
    obtain ⟨k', t'⟩ := entry
    obtain ⟨e', ds', rfl, he', hd'⟩ := hd
    exact ⟨e', ds' ++ [(k, e)], rfl, he', ih hd'⟩

theorem OwnsAll.append (hl : h.OwnsAll lo hi es l) (he : h.Owns lo hi e t) :
    h.OwnsAll lo hi (es ++ [e]) (l ++ [t]) :=
  fun _ h₂ => readsAll_append (hl _ h₂) (he _ h₂)

theorem OwnsEntries.append (hd : h.OwnsEntries lo hi ds d) (he : h.Owns lo hi e t) :
    h.OwnsEntries lo hi (ds ++ [(k, e)]) (d ++ [(k, t)]) :=
  fun _ h₂ => readsEntries_append (hd _ h₂) (he _ h₂)

theorem ownsAll_nil : h.OwnsAll lo hi [] [] := fun _ _ => by simp [ReadsAll]

theorem ownsEntries_nil : h.OwnsEntries lo hi [] [] := fun _ _ => by simp [ReadsEntries]

theorem owns_string (w : List UInt8) : h.Owns lo hi (.string w) (.string w) := fun _ _ => by simp [Reads]

theorem owns_integer (i : ℤ) : h.Owns lo hi (.integer i) (.integer i) := fun _ _ => by simp [Reads]

theorem owns_list (hp : h[p]? = some (.list es)) (hhi : p < hi) (hl : h.OwnsAll (p + 1) hi es l) :
    h.Owns p hi (.list p) (.list l) := by
  intro h' h₂
  refine ⟨p, es, rfl, ?_, hl _ (h₂.mono (Nat.le_succ p) le_rfl)⟩
  rw [h₂ p le_rfl hhi, hp]

theorem owns_dictionary (hp : h[p]? = some (.dictionary ds)) (hhi : p < hi)
    (hd : h.OwnsEntries (p + 1) hi ds d) : h.Owns p hi (.dictionary p) (.dictionary d) := by
  intro h' h₂
  refine ⟨p, ds, rfl, ?_, hd _ (h₂.mono (Nat.le_succ p) le_rfl)⟩
  rw [h₂ p le_rfl hhi, hp]

end Heap

/-- The containers that are open, from the innermost one, with their addresses. In `Zipper true` a
value can be next, in `Zipper false` a key. -/
inductive Zipper : Bool → Type where
  | root (p : ℕ) (d : List (List UInt8 × Bencoding)) : Zipper false
  | dictionary (p : ℕ) (d : List (List UInt8 × Bencoding)) (outer : Zipper true) : Zipper false
  | key (k : List UInt8) (inner : Zipper false) : Zipper true
  | list (p : ℕ) (l : List Bencoding) (outer : Zipper true) : Zipper true

namespace Zipper

def isList : Zipper true → Bool
  | key _ _ => false
  | list _ _ _ => true

/-- A value that is complete goes to the container around it. -/
def add (k : List UInt8) (t : Bencoding) : Zipper false → Zipper false
  | root p d => root p (d ++ [(k, t)])
  | dictionary p d outer => dictionary p (d ++ [(k, t)]) outer

def plug (t : Bencoding) : (z : Zipper true) → Zipper z.isList
  | key k inner => inner.add k t
  | list p l outer => list p (l ++ [t]) outer

/-- The address of the innermost dictionary. -/
def address : Zipper false → ℕ
  | root p _ => p
  | dictionary p _ _ => p

variable {b : Bool}

def outermost : {b : Bool} → Zipper b → ℕ
  | _, root p _ => p
  | _, dictionary _ _ outer => outer.outermost
  | _, key _ inner => inner.outermost
  | _, list _ _ outer => outer.outermost

def dictionaries : {b : Bool} → Zipper b → List ℕ
  | _, root p _ => [p]
  | _, dictionary p _ outer => p :: outer.dictionaries
  | _, key _ inner => inner.dictionaries
  | _, list _ _ outer => outer.dictionaries

def lists : {b : Bool} → Zipper b → List ℕ
  | _, root _ _ => []
  | _, dictionary _ _ outer => outer.lists
  | _, key _ inner => inner.lists
  | _, list p _ outer => p :: outer.lists

def keys : {b : Bool} → Zipper b → List (List UInt8)
  | _, root _ _ => []
  | _, dictionary _ _ outer => outer.keys
  | _, key k inner => k :: inner.keys
  | _, list _ _ outer => outer.keys

/-- The tokens that were read. -/
def read : {b : Bool} → Zipper b → List (Token × Lexeme)
  | _, root _ d => (.dictionary, .dictionary) :: tokensEntries d
  | _, dictionary _ d outer => outer.read ++ (.dictionary, .dictionary) :: tokensEntries d
  | _, key k inner => inner.read ++ [(.string, .string k)]
  | _, list _ l outer => outer.read ++ (.list, .list) :: tokensList l

/-- The containers are in the heap below `hi`, each with what is complete of it behind it. -/
def Holds (h : Heap) : {b : Bool} → ℕ → Zipper b → Prop
  | _, hi, root p d => p < hi ∧ ∃ ds, h[p]? = some (.dictionary ds) ∧ h.OwnsEntries (p + 1) hi ds d
  | _, hi, dictionary p d outer =>
    (p < hi ∧ ∃ ds, h[p]? = some (.dictionary ds) ∧ h.OwnsEntries (p + 1) hi ds d) ∧ Holds h p outer
  | _, hi, key _ inner => Holds h hi inner
  | _, hi, list p l outer =>
    (p < hi ∧ ∃ es, h[p]? = some (.list es) ∧ h.OwnsAll (p + 1) hi es l) ∧ Holds h p outer

/-- What adds an element to the innermost container. -/
def pushBack (e : Element) : Zipper true → Heap → Heap
  | key k inner, h => h.pushBackDictionary inner.address k e
  | list p _ _, h => h.pushBackList p e

variable {h h' : Heap} {lo hi hi' p : ℕ} {e : Element} {t : Bencoding}

theorem Holds.congr {z : Zipper b} (hz : z.Holds h hi) (hagrees : h.Agrees 0 hi h') :
    z.Holds h' hi := by
  induction z generalizing hi with
  | root p d =>
    obtain ⟨hp, ds, hds, howns⟩ := hz
    exact ⟨hp, ds, (hagrees p (Nat.zero_le p) hp).trans hds,
      howns.congr (hagrees.mono (Nat.zero_le _) le_rfl)⟩
  | dictionary p d outer ih =>
    obtain ⟨⟨hp, ds, hds, howns⟩, hz⟩ := hz
    exact ⟨⟨hp, ds, (hagrees p (Nat.zero_le p) hp).trans hds,
      howns.congr (hagrees.mono (Nat.zero_le _) le_rfl)⟩, ih hz (hagrees.mono le_rfl hp.le)⟩
  | key k inner ih => exact ih hz hagrees
  | list p l outer ih =>
    obtain ⟨⟨hp, es, hes, howns⟩, hz⟩ := hz
    exact ⟨⟨hp, es, (hagrees p (Nat.zero_le p) hp).trans hes,
      howns.congr (hagrees.mono (Nat.zero_le _) le_rfl)⟩, ih hz (hagrees.mono le_rfl hp.le)⟩

/-- A complete entry is added to the innermost dictionary. -/
theorem Holds.add {z : Zipper false} (hz : z.Holds h lo) (hle : lo ≤ hi) (howns : h.Owns lo hi e t)
    (k : List UInt8) : (z.add k t).Holds (h.pushBackDictionary z.address k e) hi := by
  have hentries : ∀ p d, (p < lo ∧ ∃ ds, h[p]? = some (.dictionary ds) ∧ h.OwnsEntries (p + 1) lo ds d) →
      p < hi ∧ ∃ ds, (h.pushBackDictionary p k e)[p]? = some (.dictionary ds) ∧
        (h.pushBackDictionary p k e).OwnsEntries (p + 1) hi ds (d ++ [(k, t)]) := by
    intro p d hp
    obtain ⟨hp, ds, hds, hd⟩ := hp
    refine ⟨hp.trans_le hle, _, Heap.pushBackDictionary_self hds, ?_⟩
    exact ((hd.mono hle).append (howns.mono hp le_rfl)).congr (Heap.agrees_modify (Or.inl (Nat.lt_succ_self p)))
  cases z with
  | root p d => exact hentries p d hz
  | dictionary p d outer => exact ⟨hentries p d hz.1, hz.2.congr (Heap.agrees_modify (Or.inr le_rfl))⟩

theorem Holds.plug {z : Zipper true} (hz : z.Holds h lo) (hle : lo ≤ hi) (howns : h.Owns lo hi e t) :
    (z.plug t).Holds (z.pushBack e h) hi := by
  cases z with
  | key k inner => exact Holds.add (z := inner) hz hle howns k
  | list p l outer =>
    obtain ⟨⟨hp, es, hes, hl⟩, hz⟩ := hz
    refine ⟨⟨hp.trans_le hle, _, Heap.pushBackList_self hes, ?_⟩,
      hz.congr (Heap.agrees_modify (Or.inr le_rfl))⟩
    exact ((hl.mono hle).append (howns.mono hp le_rfl)).congr
      (Heap.agrees_modify (Or.inl (Nat.lt_succ_self p)))

theorem length_pushBack (z : Zipper true) : (z.pushBack e h).length = h.length := by
  cases z <;> simp [pushBack, Heap.pushBackList, Heap.pushBackDictionary]

theorem outermost_plug (z : Zipper true) (t : Bencoding) : (z.plug t).outermost = z.outermost := by
  cases z with
  | key k inner => cases inner <;> rfl
  | list p l outer => rfl

theorem read_plug (z : Zipper true) (t : Bencoding) : (z.plug t).read = z.read ++ tokens t := by
  have hlist : ∀ l : List Bencoding, tokensList (l ++ [t]) = tokensList l ++ tokens t := by
    intro l
    induction l with
    | nil => simp [tokensList]
    | cons t' l ih => simp [tokensList, ih]
  have hentries : ∀ (k : List UInt8) (d : List (List UInt8 × Bencoding)), tokensEntries (d ++ [(k, t)]) =
      tokensEntries d ++ (.string, .string k) :: tokens t := by
    intro k d
    induction d with
    | nil => simp [tokensEntries]
    | cons entry d ih =>
      obtain ⟨k', t'⟩ := entry
      simp [tokensEntries, ih]
  cases z with
  | key k inner => cases inner <;> simp [plug, add, read, hentries]
  | list p l outer => simp [plug, read, hlist]

end Zipper

end ACENetwork.BitTorrent.MetaInfo
