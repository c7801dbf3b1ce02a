import Mathlib
import ACENetwork.Spec.Net.DefaultInterface
import ACENetwork.Proofs.Net.CommonTools

/-! The loop over the lines finds the device of the default route, and `getDefaultInterface` returns
an empty string. -/

namespace ACENetwork.Net.DefaultInterface

open Backtracking
open Http (ascii isAlnum isDigit isLine isSpace)

variable {s s' : Stream} {text line device w rest : List UInt8} {n : ℕ}

theorem takeWhile_line (rest : List UInt8) (hw : newline ∉ w) (hn : w.length < n)
    (hrest : rest = [] ∨ rest.head? = some newline) :
    ((w ++ rest).takeWhile fun c => decide (c ≠ newline)).take (n - 1) = w := by
  have hall : ∀ c ∈ w, decide (c ≠ newline) = true := by
    intro c hc
    exact decide_eq_true fun h => hw (h ▸ hc)
  have hstop : (rest.takeWhile fun c => decide (c ≠ newline)) = [] := by
    rcases hrest with rfl | hhead
    · rfl
    · obtain ⟨rest, rfl⟩ := List.head?_eq_some_iff.1 hhead
      exact List.takeWhile_cons_of_neg (by simp)
  rw [List.takeWhile_append_of_pos hall, hstop, List.append_nil, List.take_of_length_le (by omega)]

theorem getline_newline (rest : List UInt8) (hw : newline ∉ w) (hn : w.length < n) :
    Stream.getline n { rest := w ++ newline :: rest } = (w, { rest := rest }) := by
  have hline := takeWhile_line (newline :: rest) hw hn (Or.inr rfl)
  simp only [Stream.getline, hline, List.drop_left, Bool.or_self, Bool.false_eq_true, if_false, if_true]

theorem getline_end (hw : newline ∉ w) (hn : w.length < n) :
    Stream.getline n { rest := w } = (w, { rest := [], eof := true, failed := decide (w = []) }) := by
  have hline := takeWhile_line [] hw hn (Or.inl rfl)
  rw [List.append_nil] at hline
  simp only [Stream.getline, hline, List.drop_length, Bool.or_self, Bool.false_eq_true, if_false]

theorem getline_eof (h : s.eof = true) : s.getline n = ([], { s with failed := true }) := by
  rw [Stream.getline, if_pos (by simp [h])]

theorem deviceOf_nil : deviceOf [] = none := rfl

def left (s : Stream) : ℕ := if s.eof || s.failed then 0 else s.rest.length + 1

theorem left_getline (h : (s.getline n).2.failed = false) : left (s.getline n).2 < left s := by
  by_cases hstate : (s.eof || s.failed) = true
  · rw [Stream.getline, if_pos hstate] at h
    exact absurd h (by simp)
  · have hleft : left s = s.rest.length + 1 := if_neg hstate
    rw [Stream.getline, if_neg hstate] at h ⊢
    rw [hleft]
    generalize (s.rest.takeWhile fun c => decide (c ≠ newline)).take (n - 1) = line at h ⊢
    cases hdrop : s.rest.drop line.length with
    | nil => simp [left, hdrop]
    | cons c rest =>
      have hlength := congrArg List.length hdrop
      rw [List.length_drop, List.length_cons] at hlength
      simp only [hdrop] at h ⊢
      split_ifs at h ⊢ with hc
      · simp only [left, Bool.or_self, Bool.false_eq_true, if_false]
        omega

theorem body_found (h : deviceOf (s.getline bufsiz).1 = some device) : body s = .done device := by
  simp only [body, h]

theorem body_failed (h : deviceOf (s.getline bufsiz).1 = none) (hfailed : (s.getline bufsiz).2.failed = true) :
    body s = .done [] := by
  simp only [body, h, hfailed, if_true]

theorem body_next (h : deviceOf (s.getline bufsiz).1 = none) (hfailed : (s.getline bufsiz).2.failed = false) :
    body s = .again (s.getline bufsiz).2 := by
  simp only [body, h, hfailed, Bool.false_eq_true, if_false]

theorem left_body (h : body s = .again s') : left s' < left s := by
  cases hdevice : deviceOf (s.getline bufsiz).1 with
  | some device =>
    rw [body_found hdevice] at h
    cases h
  | none =>
    cases hfailed : (s.getline bufsiz).2.failed with
    | true =>
      rw [body_failed hdevice hfailed] at h
      cases h
    | false =>
      rw [body_next hdevice hfailed] at h
      obtain rfl := Loop.Next.again.inj h
      exact left_getline hfailed

theorem search_isSome (text : List UInt8) : (search text).isSome := by
  obtain ⟨result, hresult⟩ := Loop.exists_run_eq_some (s := { rest := text }) (n := text.length + 2) left
    (fun s s' => left_body) (by simp [left])
  exact Option.isSome_iff_exists.2 ⟨result, hresult⟩

theorem returns_eof (h : s.eof = true) : Loop.Returns body s [] := by
  have hread := getline_eof (n := bufsiz) h
  refine (Loop.returns_done (body_failed ?_ ?_)).2 rfl
  · rw [hread]
    exact deviceOf_nil
  · rw [hread]

theorem returns_lines (h : ∀ line ∈ text.splitOn newline, line.length < bufsiz) :
    Loop.Returns body { rest := text } (((text.splitOn newline).findSome? deviceOf).getD []) := by
  induction hlength : text.length using Nat.strong_induction_on generalizing text with
  | _ n ih =>
    by_cases hmem : newline ∈ text
    · obtain ⟨w, rest, rfl, hw⟩ := List.eq_append_cons_of_mem hmem
      rw [List.splitOn_append_cons_self_of_not_mem hw] at h ⊢
      have hread := getline_newline rest hw (h w List.mem_cons_self)
      rw [List.findSome?_cons]
      cases hdevice : deviceOf w with
      | some device =>
        refine (Loop.returns_done (body_found ?_)).2 rfl
        rw [hread]
        exact hdevice
      | none =>
        have hagain : body { rest := w ++ newline :: rest } = .again { rest := rest } := by
          rw [body_next (by rw [hread]; exact hdevice) (by rw [hread]), hread]
        refine (Loop.returns_again hagain).2 (ih rest.length ?_ (fun line hline => ?_) rfl)
        · rw [← hlength, List.length_append, List.length_cons]
          omega
        · exact h line (List.mem_cons_of_mem _ hline)
    · rw [List.splitOn_eq_singleton hmem] at h ⊢
      have hread := getline_end hmem (h text List.mem_cons_self)
      have hline : deviceOf (Stream.getline bufsiz { rest := text }).1 = deviceOf text := by rw [hread]
      rw [List.findSome?_cons, List.findSome?_nil]
      cases hdevice : deviceOf text with
      | some device => exact (Loop.returns_done (body_found (hline.trans hdevice))).2 rfl
      | none =>
        by_cases hnil : text = []
        · refine (Loop.returns_done (body_failed (hline.trans hdevice) ?_)).2 rfl
          rw [hread]
          exact decide_eq_true hnil
        · have hfailed : (Stream.getline bufsiz { rest := text }).2.failed = false := by
            rw [hread]
            exact decide_eq_false hnil
          refine (Loop.returns_again (body_next (hline.trans hdevice) hfailed)).2 (returns_eof ?_)
          rw [hread]

theorem search_eq (h : ∀ line ∈ text.splitOn newline, line.length < bufsiz) :
    search text = some (((text.splitOn newline).findSome? deviceOf).getD []) :=
  (Loop.run_eq_some_iff left (fun s s' => left_body) (by simp [left])).2 (returns_lines h)

theorem isAddress_cls {s : List UInt8} (h : IsAddress s) : ∀ c ∈ s, (isDigit c || decide (c = dot)) = true := by
  have hwords : ∀ ws : List (List UInt8), (∀ w ∈ ws, IsOctet w) →
      ∀ c ∈ [dot].intercalate ws, (isDigit c || decide (c = dot)) = true := by
    intro ws
    induction ws with
    | nil => exact fun _ c hc => absurd hc List.not_mem_nil
    | cons w ws ih =>
      intro hws c hc
      have hw : ∀ c ∈ w, (isDigit c || decide (c = dot)) = true := fun c hc => by
        rw [(hws w List.mem_cons_self).short.2 c hc, Bool.true_or]
      cases ws with
      | nil =>
        rw [List.intercalate_singleton] at hc
        exact hw c hc
      | cons v ws =>
        rw [List.intercalate_cons_cons, List.append_assoc, List.mem_append, List.singleton_append,
          List.mem_cons] at hc
        rcases hc with hc | rfl | hc
        · exact hw c hc
        · rfl
        · exact ih (fun w hw => hws w (List.mem_cons_of_mem _ hw)) c hc
  have hjoin : [dot].intercalate (s.splitOn dot) = s := List.intercalate_splitOn dot
  rw [← hjoin]
  exact hwords _ h.2

theorem isAddress_ne_nil {s : List UInt8} (h : IsAddress s) : s ≠ [] := by
  rintro rfl
  exact absurd h.1 (by decide)

theorem stops_name (hrest : ∀ c ∈ rest.head?, isSpace c = true) :
    Regex.Stops isAlnum (device.dropWhile isAlnum ++ rest) := by
  intro c hc
  cases hdrop : device.dropWhile isAlnum with
  | nil =>
    rw [hdrop, List.nil_append] at hc
    have hspace := hrest c hc
    simp only [isSpace, decide_eq_true_eq] at hspace
    rcases hspace with rfl | ⟨h9, h13⟩
    · rfl
    · simp only [isAlnum, Http.isAlpha, isDigit, Bool.or_eq_false_iff, decide_eq_false_iff_not]
      grind
  | cons b v =>
    rw [hdrop, List.cons_append, List.head?_cons] at hc
    obtain rfl := Option.some.inj hc
    have hstop := List.head?_dropWhile_not isAlnum device
    rw [hdrop] at hstop
    simpa using hstop

/-- From a line for the default route the expression takes the letters and digits that the name of the
device begins with. -/
theorem deviceOf_isDefaultLine (h : IsDefaultLine line device) (hline : ∀ c ∈ line, isLine c = true)
    (hzero : 0 ∉ line) (hdevice : device.takeWhile isAlnum ≠ []) :
    deviceOf line = some (device.takeWhile isAlnum) := by
  have hstring : cString line = line := by
    refine List.takeWhile_eq_self_iff.2 fun c hc => decide_eq_true ?_
    rintro rfl
    exact hzero hc
  obtain ⟨address, rest, rfl, haddress, -, -, hrest⟩ := h
  have hname : device ++ rest = device.takeWhile isAlnum ++ (device.dropWhile isAlnum ++ rest) := by
    rw [← List.append_assoc, List.takeWhile_append_dropWhile]
  have htail : ∀ c ∈ device.dropWhile isAlnum ++ rest, isLine c = true := by
    intro c hc
    refine hline c ?_
    simp only [hname, List.mem_append]
    exact Or.inr (Or.inr (Or.inr (Or.inr (List.mem_append.1 hc))))
  have hmatch : routeRegex.fullMatch (ascii "default via " ++ (address ++ (ascii " dev " ++ (device ++ rest)))) =
      some (Function.update (Function.update (fun _ => none) 1 (some address)) 2
        (some (device.takeWhile isAlnum))) := by
    rw [Regex.fullMatch, routeRegex, Regex.run_seq, Regex.run_lit, Regex.run_seq, Regex.run_group]
    refine Regex.run_plus (isAddress_ne_nil haddress) (isAddress_cls haddress) ?_ ?_
    · intro c hc
      obtain rfl := Option.some.inj hc
      rfl
    rw [Regex.capture_append, Regex.run_seq, Regex.run_lit, Regex.run_seq, Regex.run_group, hname]
    refine Regex.run_plus hdevice (fun c hc => List.mem_takeWhile_imp hc) (stops_name hrest) ?_
    rw [Regex.capture_append, ← List.append_nil (device.dropWhile isAlnum ++ rest)]
    exact Regex.run_star htail (by simp [Regex.Stops]) (if_pos rfl)
  rw [deviceOf, hstring, hmatch]
  rfl

theorem IsDefaultLine.ne_nil (h : IsDefaultLine line device) : device ≠ [] := by
  obtain ⟨-, -, -, -, hdevice, -⟩ := h
  exact hdevice

/-- An empty string is what is to be returned just if there is no line for a default route. -/
theorem isDefaultInterface_nil :
    IsDefaultInterface text [] ↔ ∀ line ∈ text.splitOn newline, ∀ device, ¬ IsDefaultLine line device := by
  constructor
  · rintro (⟨_, _, _, _, _, h⟩ | ⟨-, h⟩)
    · exact absurd rfl h.ne_nil
    · exact h
  · exact fun h => Or.inr ⟨rfl, h⟩

/-- Whatever the loop finds, the function returns an empty string. -/
theorem getDefaultInterface_eq (text : List UInt8) (wireless : List (List UInt8)) :
    getDefaultInterface .ieee8023 (some text) wireless = some [] ∧
      getDefaultInterface .ppp (some text) wireless = some [] := by
  obtain ⟨result, hresult⟩ := Option.isSome_iff_exists.1 (search_isSome text)
  have hsearch : ((search text).bind fun _ => some ([] : List UInt8)) = some [] := by
    rw [hresult, Option.bind_some]
  exact ⟨hsearch, hsearch⟩

/-- For both types the function returns, and what it returns is the default interface just if there is
no line for a default route. -/
theorem getDefaultInterface_iff (text : List UInt8) (wireless : List (List UInt8)) :
    ((∃ name, getDefaultInterface .ieee8023 (some text) wireless = some name ∧ IsDefaultInterface text name) ↔
        ∀ line ∈ text.splitOn newline, ∀ device, ¬ IsDefaultLine line device) ∧
      ((∃ name, getDefaultInterface .ppp (some text) wireless = some name ∧ IsDefaultInterface text name) ↔
        ∀ line ∈ text.splitOn newline, ∀ device, ¬ IsDefaultLine line device) := by
  have hiff : ∀ {e : Option (List UInt8)}, e = some [] →
      ((∃ name, e = some name ∧ IsDefaultInterface text name) ↔
        ∀ line ∈ text.splitOn newline, ∀ device, ¬ IsDefaultLine line device) := by
    rintro e rfl
    rw [← isDefaultInterface_nil]
    constructor
    · rintro ⟨name, hname, h⟩
      obtain rfl := Option.some.inj hname
      exact h
    · exact fun h => ⟨[], rfl, h⟩
  obtain ⟨h8023, hppp⟩ := getDefaultInterface_eq text wireless
  exact ⟨hiff h8023, hiff hppp⟩

def routes : List UInt8 := ascii "default via 10.0.0.1 dev eth0"

theorem isDefaultLine_routes : IsDefaultLine routes (ascii "eth0") := by
  have hsplit : (ascii "10.0.0.1").splitOn dot = [ascii "10", ascii "0", ascii "0", ascii "1"] := by
    decide +kernel
  refine ⟨ascii "10.0.0.1", [], by decide +kernel, ⟨by rw [hsplit]; rfl, ?_⟩, by decide +kernel,
    by decide +kernel, by simp⟩
  rw [hsplit]
  intro w hw
  simp only [List.mem_cons, List.not_mem_nil, or_false] at hw
  rcases hw with rfl | rfl | rfl | rfl <;> unfold IsOctet <;> decide +kernel

/-- There is a default route, and the name of its device is not returned. -/
theorem not_default_routes :
    ¬ ∃ name, getDefaultInterface .ieee8023 (some routes) [] = some name ∧ IsDefaultInterface routes name := by
  rintro ⟨name, hname, h⟩
  obtain rfl := Option.some.inj ((getDefaultInterface_eq routes []).1.symm.trans hname)
  have hmem : routes ∈ routes.splitOn newline := by decide +kernel
  exact isDefaultInterface_nil.1 h routes hmem _ isDefaultLine_routes

end ACENetwork.Net.DefaultInterface
