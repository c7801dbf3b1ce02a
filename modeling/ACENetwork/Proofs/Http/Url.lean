import Mathlib
import ACENetwork.Spec.Http.Url

/-! `parseURL` throws for every text, since a class with a name cannot begin a range. With the dash in
the last place it would split every URL: of all the ways in which the expression can take its text,
the first one is the URL itself. -/

namespace ACENetwork.Http

open Backtracking

theorem isLine_of_isHostName {c : UInt8} (h : isHostName c = true) : isLine c = true := by
  revert c
  decide +kernel

theorem isLine_of_isDigit {c : UInt8} (h : isDigit c = true) : isLine c = true :=
  isLine_of_isHostName (by simp [isHostName, isAlnum, h])

namespace URL

variable (u : URL)

/-- What is behind the host. -/
def behindHost : List UInt8 := (u.port.elim [] fun p => 58 :: p) ++ u.pathText

theorem hostName_append : u.hostName ++ u.pathText = u.host ++ u.behindHost := List.append_assoc _ _ _

/-- The host ends at a colon or at a slash, if not at the end. -/
theorem head_behindHost {c : UInt8} (h : c ∈ u.behindHost.head?) : c = 58 ∨ c = 47 := by
  unfold behindHost pathText at h
  cases hport : u.port with
  | some p =>
    rw [hport] at h
    exact Or.inl (Option.some.inj h).symm
  | none =>
    cases hpath : u.path with
    | some p =>
      rw [hport, hpath] at h
      exact Or.inr (Option.some.inj h).symm
    | none =>
      rw [hport, hpath] at h
      exact absurd h (by simp)

theorem stops_behindHost : Regex.Stops Http.isHostName u.behindHost := by
  intro c hc
  rcases u.head_behindHost hc with rfl | rfl
  · decide
  · decide

theorem stops_pathText : Regex.Stops isDigit u.pathText := by
  intro c hc
  unfold pathText at hc
  cases hpath : u.path with
  | none =>
    rw [hpath] at hc
    exact absurd hc (by simp)
  | some p =>
    rw [hpath] at hc
    obtain rfl : 47 = c := Option.some.inj hc
    decide

/-- What looks like a host with `://` behind it is not in front of a URL without its scheme. -/
theorem not_scheme {w r : List UInt8} (hw : ∀ c ∈ w, Http.isHostName c = true)
    (h : u.hostName ++ u.pathText = w ++ (ascii "://" ++ r)) : False := by
  rw [hostName_append] at h
  have hdrop := congrArg (List.dropWhile Http.isHostName) h
  rw [List.dropWhile_append_of_pos u.isHostName, List.dropWhile_append_of_pos hw] at hdrop
  have hrest : u.behindHost.dropWhile Http.isHostName = u.behindHost := by
    refine List.dropWhile_eq_self_iff.2 fun hlt => ?_
    have hstop := u.stops_behindHost _ (List.head?_eq_some_head (List.ne_nil_of_length_pos hlt))
    rw [List.head_eq_getElem] at hstop
    exact Bool.eq_false_iff.1 hstop
  have hcolon : (ascii "://" ++ r).dropWhile Http.isHostName = ascii "://" ++ r :=
    List.dropWhile_cons_of_neg (by decide)
  rw [hrest, hcolon, behindHost] at hdrop
  cases hport : u.port with
  | none =>
    rw [hport, pathText] at hdrop
    cases hpath : u.path with
    | none =>
      rw [hpath] at hdrop
      exact absurd hdrop (by simp [ascii])
    | some p =>
      rw [hpath] at hdrop
      exact absurd (List.cons.inj hdrop).1 (by decide)
  | some p =>
    rw [hport] at hdrop
    obtain ⟨hlen, -, hp⟩ := u.isPort p hport
    cases p with
    | nil => exact absurd hlen (by decide)
    | cons c p =>
      have hc : c = 47 := (List.cons.inj (List.cons.inj hdrop).2).1
      exact absurd (hp c List.mem_cons_self) (by rw [hc]; decide)

/-- The first group behind the scheme. -/
def schemeGroups (g : Groups UInt8) : Groups UInt8 :=
  if u.scheme = some true then Function.update g 1 (some (ascii "s")) else g

end URL

theorem takes_scheme {g : Groups UInt8} {s : List UInt8} {q : Backtracking.State UInt8}
    (h : (Regex.seq (.lit (ascii "http"))
      (.seq (.opt (.group 1 (.lit (ascii "s")))) (.lit (ascii "://")))).Takes (g, s) q) :
    (s = ascii "http://" ++ q.2 ∧ q.1 = g) ∨
      (s = ascii "https://" ++ q.2 ∧ q.1 = Function.update g 1 (some (ascii "s"))) := by
  obtain ⟨⟨g₁, s₁⟩, h₁, ⟨g₂, s₂⟩, h₂, h₃⟩ := h
  obtain ⟨rfl, -, rfl, rfl⟩ := (Regex.plain_lit (ascii "http") _ _ _).1 h₁
  obtain ⟨hq, -, rfl, rfl⟩ := (Regex.plain_lit (ascii "://") _ _ _).1 h₃
  rcases h₂ with h₂ | h₂
  · obtain ⟨-, rfl, rfl, rfl⟩ := (Regex.takes_group (Regex.plain_lit (ascii "s")) 1 _ _ _).1 h₂
    exact Or.inr ⟨rfl, hq⟩
  · obtain ⟨rfl, rfl⟩ := Prod.mk.inj h₂
    exact Or.inl ⟨rfl, hq⟩

/-- The scheme of the URL is what is found, if it goes on behind it. -/
theorem run_schemeRegex (u : URL) {β : Type} {g : Groups UInt8} {k : Backtracking.State UInt8 → Option β} {x : β}
    (hk : k (u.schemeGroups g, u.hostName ++ u.pathText) = some x) :
    schemeRegex.run (g, u.text) k = some x := by
  cases hscheme : u.scheme with
  | none =>
    have htext : u.text = u.hostName ++ u.pathText := by simp [URL.text, schemeText, hscheme]
    have hgroups : u.schemeGroups g = g := by simp [URL.schemeGroups, hscheme]
    rw [hgroups] at hk
    rw [schemeRegex, Regex.opt, Regex.run_alt_right, htext]
    · exact hk
    · intro q hq
      rw [htext] at hq
      rcases takes_scheme hq with ⟨h, -⟩ | ⟨h, -⟩
      · exact (u.not_scheme (w := ascii "http") (by decide +kernel) h).elim
      · exact (u.not_scheme (w := ascii "https") (by decide +kernel) h).elim
  | some ssl =>
    refine Regex.run_alt_left ?_
    cases ssl with
    | false =>
      have htext : u.text = ascii "http" ++ (ascii "://" ++ (u.hostName ++ u.pathText)) := by
        simp [URL.text, schemeText, hscheme, ascii]
      have hgroups : u.schemeGroups g = g := by simp [URL.schemeGroups, hscheme]
      rw [hgroups] at hk
      have hnone : ∀ k : Backtracking.State UInt8 → Option β, (Regex.group 1 (.lit (ascii "s"))).run
          (g, ascii "://" ++ (u.hostName ++ u.pathText)) k = none := fun k => rfl
      rw [htext, Regex.run_seq, Regex.run_lit, Regex.run_seq, Regex.opt, Regex.run, hnone,
        Option.none_or, Regex.run, Regex.run_lit, hk]
    | true =>
      have htext : u.text =
          ascii "http" ++ (ascii "s" ++ (ascii "://" ++ (u.hostName ++ u.pathText))) := by
        simp [URL.text, schemeText, hscheme, ascii]
      have hgroups : u.schemeGroups g = Function.update g 1 (some (ascii "s")) := by
        simp [URL.schemeGroups, hscheme]
      rw [hgroups] at hk
      rw [htext, Regex.run_seq, Regex.run_lit, Regex.run_seq]
      refine Regex.run_alt_left ?_
      rw [Regex.run_group, Regex.run_lit, Regex.capture_append, Regex.run_lit, hk]

namespace URL

variable (u : URL)

/-- All groups of the match. -/
def groups : Groups UInt8 :=
  let g := Function.update (u.schemeGroups fun _ => none) 2 (some u.host)
  let g := u.port.elim g fun p => Function.update g 3 (some p)
  u.path.elim g fun p => Function.update g 4 (some (47 :: p))

theorem run_path {β : Type} {g : Groups UInt8} {k : Backtracking.State UInt8 → Option β} {x : β} {i : ℕ}
    (hk : k (u.path.elim g fun p => Function.update g i (some (47 :: p)), []) = some x) :
    (Regex.opt (.group i (.plus (.cls Http.isLine)))).run (g, u.pathText) k = some x := by
  unfold pathText
  cases hpath : u.path with
  | none =>
    rw [hpath] at hk
    exact hk
  | some p =>
    rw [hpath] at hk
    refine Regex.run_alt_left ?_
    have hline : ∀ c ∈ 47 :: p, Http.isLine c = true := by
      intro c hc
      rcases List.mem_cons.1 hc with rfl | hc
      · decide
      · exact u.isLine p hpath c hc
    rw [Regex.run_group, Option.elim_some, ← List.append_nil (47 :: p)]
    refine Regex.run_plus (List.cons_ne_nil _ _) hline (by simp [Regex.Stops]) ?_
    rw [Regex.capture_append]
    exact hk

theorem run_portRegex {β : Type} {g : Groups UInt8} {k : Backtracking.State UInt8 → Option β} {x : β}
    {p : List UInt8} (hp : p ∈ u.port) (hk : k (g, u.pathText) = some x) :
    portRegex.run (g, p ++ u.pathText) k = some x := by
  obtain ⟨hlen, hlen', hdigits⟩ := u.isPort p hp
  cases p with
  | nil => exact absurd hlen (by decide)
  | cons c p =>
    rw [portRegex, Regex.run_seq, List.cons_append, Regex.run_cls_cons,
      if_pos (hdigits c List.mem_cons_self)]
    exact Regex.run_upTo (Nat.le_of_succ_le_succ hlen')
      (fun c hc => hdigits c (List.mem_cons_of_mem _ hc)) u.stops_pathText hk

theorem run_colon_pathText {β : Type} (r : Regex UInt8) (g : Groups UInt8)
    (k : Backtracking.State UInt8 → Option β) :
    (Regex.seq (.lit (ascii ":")) r).run (g, u.pathText) k = none := by
  unfold pathText
  cases u.path <;> rfl

theorem run_host {β : Type} {c : UInt8 → Bool} {g : Groups UInt8} {k : Backtracking.State UInt8 → Option β} {x : β}
    {i : ℕ} (hhost : ∀ a ∈ u.host, c a = true) (hcolon : c 58 = false) (hslash : c 47 = false)
    (hk : k (Function.update g i (some u.host), u.behindHost) = some x) :
    (Regex.group i (.plus (.cls c))).run (g, u.hostName ++ u.pathText) k = some x := by
  rw [Regex.run_group, hostName_append]
  refine Regex.run_plus u.host_ne hhost ?_ ?_
  · intro a ha
    rcases u.head_behindHost ha with rfl | rfl
    · exact hcolon
    · exact hslash
  · rw [Regex.capture_append]
    exact hk

theorem fullMatch_text : (URLRegex Http.isHostName).fullMatch u.text = some u.groups := by
  rw [Regex.fullMatch, URLRegex, Regex.run_seq]
  refine run_schemeRegex u ?_
  rw [Regex.run_seq]
  refine u.run_host u.isHostName (by decide) (by decide) ?_
  rw [Regex.run_seq]
  cases hport : u.port with
  | none =>
    have hrest : u.behindHost = u.pathText := by rw [behindHost, hport]; rfl
    rw [hrest, Regex.opt, Regex.run, u.run_colon_pathText, Option.none_or, Regex.run]
    refine u.run_path ?_
    rw [if_pos rfl, groups, hport]
    rfl
  | some p =>
    have hrest : u.behindHost = ascii ":" ++ (p ++ u.pathText) := by rw [behindHost, hport]; rfl
    refine Regex.run_alt_left ?_
    rw [hrest, Regex.run_seq, Regex.run_lit, Regex.run_group]
    refine u.run_portRegex hport ?_
    rw [Regex.capture_append]
    refine u.run_path ?_
    rw [if_pos rfl, groups, hport]
    rfl

theorem groups_one : u.groups 1 = if u.scheme = some true then some (ascii "s") else none := by
  unfold groups schemeGroups
  cases u.port <;> cases u.path <;> split_ifs <;> simp

theorem groups_two : u.groups 2 = some u.host := by
  unfold groups
  cases u.port <;> cases u.path <;> simp

theorem groups_three : u.groups 3 = u.port := by
  unfold groups schemeGroups
  cases u.port <;> cases u.path <;> split_ifs <;> simp

theorem groups_four : u.groups 4 = u.path.map fun p => 47 :: p := by
  unfold groups schemeGroups
  cases u.port <;> cases u.path <;> split_ifs <;> simp

end URL

/-- The second expression asks for the slash only: empty segments can be left to its last group. -/
theorem URIRegex_isSome {p : List UInt8} (hp : ∀ c ∈ p, isLine c = true) :
    (URIRegex.fullMatch (47 :: p)).isSome := by
  refine Regex.fullMatch_isSome (g := Function.update (fun _ => none) 2 (some p)) ?_
  exact ⟨_, (Regex.plain_lit (ascii "/") _ _ (_, p)).2 ⟨rfl, _, rfl, rfl⟩, _, .refl,
    (Regex.takes_group (Regex.plain_star false isLine) 2 _ _ _).2 ⟨p, hp, rfl, by simp⟩⟩

theorem head_of_URIRegex {s : List UInt8} (h : (URIRegex.fullMatch s).isSome) :
    s.head? = some 47 := by
  obtain ⟨g, hg⟩ := Option.isSome_iff_exists.1 h
  obtain ⟨m, hm, -⟩ := Regex.fullMatch_takes hg
  obtain ⟨-, -, rfl, rfl⟩ := (Regex.plain_lit (ascii "/") _ _ _).1 hm
  rfl

theorem splitURL_text (u : URL) : splitURL (URLRegex isHostName) u.text = some u.parts := by
  have hpath : (u.groups 4).getD (ascii "/") = 47 :: u.path.getD [] := by
    rw [u.groups_four]
    cases u.path <;> rfl
  have hline : ∀ c ∈ u.path.getD [], isLine c = true := by
    intro c hc
    cases h : u.path with
    | none => exact absurd hc (by simp [h])
    | some p => exact u.isLine p h c (by simpa [h] using hc)
  have hssl : (u.groups 1).isSome = decide (u.scheme = some true) := by
    rw [u.groups_one]
    split_ifs with h <;> simp [h]
  rw [splitURL, u.fullMatch_text]
  simp only [u.groups_two, u.groups_three, hpath, if_pos (URIRegex_isSome hline), hssl]
  rw [URL.parts, URL.hostName]
  cases u.port with
  | none => simp
  | some p => rfl

theorem URL.isLine_behindScheme (u : URL) : ∀ c ∈ u.hostName ++ u.pathText, Http.isLine c = true := by
  intro c hc
  rw [u.hostName_append, URL.behindHost, URL.pathText] at hc
  simp only [List.mem_append] at hc
  rcases hc with hc | hc | hc
  · exact isLine_of_isHostName (u.isHostName c hc)
  · cases hport : u.port with
    | none => simp [hport] at hc
    | some p =>
      rw [hport, Option.elim_some] at hc
      rcases List.mem_cons.1 hc with rfl | hc
      · decide
      · exact isLine_of_isDigit ((u.isPort p hport).2.2 c hc)
  · cases hpath : u.path with
    | none => simp [hpath] at hc
    | some p =>
      rw [hpath, Option.elim_some] at hc
      rcases List.mem_cons.1 hc with rfl | hc
      · decide
      · exact u.isLine p hpath c hc

theorem URLRequiresSSL_text (u : URL) : URLRequiresSSL u.text = decide (u.scheme = some true) := by
  have hne : u.hostName ++ u.pathText ≠ [] := by
    rw [u.hostName_append]
    exact List.append_ne_nil_of_left_ne_nil u.host_ne _
  have hmatch : SSLRegex.fullMatch u.text =
      some (Function.update (u.schemeGroups fun _ => none) 2 (some (u.hostName ++ u.pathText))) := by
    rw [Regex.fullMatch, SSLRegex, Regex.run_seq]
    refine run_schemeRegex u (Regex.run_alt_left ?_)
    rw [Regex.run_group, ← List.append_nil (u.hostName ++ u.pathText)]
    refine Regex.run_plus hne u.isLine_behindScheme (by simp [Regex.Stops]) ?_
    rw [Regex.capture_append, if_pos rfl, List.append_nil]
  rw [URLRequiresSSL, hmatch]
  simp only [URL.schemeGroups]
  split_ifs with h <;> simp [h]

theorem schemePrefix_text (u : URL) : schemePrefix u.text = schemeText u.scheme := by
  have htext : u.text = schemeText u.scheme ++ (u.hostName ++ u.pathText) := rfl
  cases hscheme : u.scheme with
  | some ssl =>
    cases ssl with
    | true =>
      rw [hscheme, schemeText] at htext
      rw [schemePrefix, htext, if_pos (List.prefix_append _ _)]
      rfl
    | false =>
      rw [hscheme, schemeText] at htext
      have hno : ¬ ascii "https://" <+: u.text := by
        rw [htext]
        rintro ⟨r, hr⟩
        have hc : (115 : UInt8) = 58 :=
          (List.cons.inj (List.cons.inj (List.cons.inj (List.cons.inj (List.cons.inj hr).2).2).2).2).1
        exact absurd hc (by decide)
      rw [schemePrefix, if_neg hno, htext, if_pos (List.prefix_append _ _)]
      rfl
  | none =>
    rw [hscheme, schemeText, List.nil_append] at htext
    have hno : ∀ w : List UInt8, (∀ c ∈ w, isHostName c = true) → ¬ w ++ ascii "://" <+: u.text := by
      rintro w hw ⟨r, hr⟩
      rw [htext, List.append_assoc] at hr
      exact u.not_scheme hw hr.symm
    have hssl : ¬ ascii "https://" <+: u.text := hno (ascii "https") (by decide +kernel)
    have hplain : ¬ ascii "http://" <+: u.text := hno (ascii "http") (by decide +kernel)
    rw [schemePrefix, if_neg hssl, if_neg hplain]
    rfl

theorem withoutScheme_text (u : URL) : withoutScheme u.text = u.hostName ++ u.pathText := by
  rw [withoutScheme, schemePrefix_text, URL.text, List.drop_left]

theorem takes_portRegex : portRegex.Plain fun w =>
    1 ≤ w.length ∧ w.length ≤ 5 ∧ ∀ c ∈ w, isDigit c = true := by
  intro g s q
  rw [portRegex, Regex.plain_cls_seq isDigit (Regex.plain_upTo isDigit 4)]
  refine and_congr_right fun _ => exists_congr fun w => and_congr_left fun _ => ?_
  constructor
  · rintro ⟨a, v, ha, hv, rfl⟩
    exact ⟨Nat.succ_pos _, Nat.succ_le_succ hv.1, List.forall_mem_cons.2 ⟨ha, hv.2⟩⟩
  · rintro ⟨hlen, hlen', hw⟩
    cases w with
    | nil => exact absurd hlen (by decide)
    | cons a v =>
      obtain ⟨ha, hv⟩ := List.forall_mem_cons.1 hw
      exact ⟨a, v, ha, ⟨Nat.le_of_succ_le_succ hlen', hv⟩, rfl⟩

theorem exists_url {s : List UInt8} {parts : URLParts}
    (h : splitURL (URLRegex isHostName) s = some parts) : ∃ u : URL, u.text = s := by
  unfold splitURL at h
  cases hg : (URLRegex isHostName).fullMatch s with
  | none => simp [hg] at h
  | some g =>
    obtain ⟨⟨g₁, s₁⟩, h₁, ⟨g₂, s₂⟩, h₂, ⟨g₃, s₃⟩, h₃, h₄⟩ := Regex.fullMatch_takes hg
    obtain ⟨host, ⟨hne, hhost⟩, -, rfl⟩ :=
      (Regex.takes_group (Regex.plain_plus isHostName) 2 _ _ _).1 h₂
    obtain ⟨scheme, hscheme⟩ : ∃ scheme, s = schemeText scheme ++ (host ++ s₂) := by
      rcases h₁ with h₁ | h₁
      · rcases takes_scheme h₁ with ⟨hs, -⟩ | ⟨hs, -⟩
        · exact ⟨some false, hs⟩
        · exact ⟨some true, hs⟩
      · exact ⟨none, (Prod.mk.inj h₁).2.symm⟩
    obtain ⟨port, hport, hs₂⟩ : ∃ port : Option (List UInt8),
        (∀ p ∈ port, 1 ≤ p.length ∧ p.length ≤ 5 ∧ ∀ c ∈ p, isDigit c = true) ∧
          s₂ = (port.elim [] fun p => 58 :: p) ++ s₃ := by
      rcases h₃ with ⟨m, hm, h₃⟩ | h₃
      · obtain ⟨-, -, rfl, hs₂⟩ := (Regex.plain_lit (ascii ":") _ _ _).1 hm
        obtain ⟨p, hp, -, hs₃⟩ := (Regex.takes_group takes_portRegex 3 _ _ _).1 h₃
        refine ⟨some p, fun p' hp' => Option.some.inj hp' ▸ hp, hs₂.trans ?_⟩
        rw [hs₃]
        rfl
      · exact ⟨none, by simp, (Prod.mk.inj h₃).2.symm⟩
    obtain ⟨path, hpath, hs₃⟩ : ∃ path : Option (List UInt8),
        (∀ p ∈ path, ∀ c ∈ p, isLine c = true) ∧ s₃ = path.elim [] fun p => 47 :: p := by
      rcases h₄ with h₄ | h₄
      · obtain ⟨w, ⟨-, hw⟩, hg₄, hs₃⟩ := (Regex.takes_group (Regex.plain_plus isLine) 4 _ _ _).1 h₄
        have huri : (g 4).getD (ascii "/") = w := by
          have hfour : g 4 = some w := (congrFun hg₄ 4).trans (Function.update_self _ _ _)
          rw [hfour]
          rfl
        have hslash : w.head? = some 47 := by
          rw [hg] at h
          simp only at h
          split at h
          · simp at h
          · split_ifs at h with hmatch
            exact huri ▸ head_of_URIRegex hmatch
        obtain ⟨p, rfl⟩ := List.head?_eq_some_iff.1 hslash
        refine ⟨some p, fun p' hp' c hc => hw c (List.mem_cons_of_mem _ ?_), by simpa using hs₃⟩
        exact Option.some.inj hp' ▸ hc
      · exact ⟨none, by simp, (Prod.mk.inj h₄).2.symm⟩
    refine ⟨⟨scheme, host, port, path, hne, hhost, hport, hpath⟩, ?_⟩
    rw [URL.text, URL.hostName, URL.pathText, hscheme, hs₂, hs₃, List.append_assoc]

theorem splitsInto_parts (u : URL) : SplitsInto u.text u.parts where
  useSSL := (URLRequiresSSL_text u).symm
  URI := rfl
  hostName := by
    refine ⟨u.host, u.host_ne, u.isHostName, ?_⟩
    cases hport : u.port with
    | none => exact Or.inl (by simp [URL.parts, URL.hostName, hport])
    | some p =>
      obtain ⟨hlen, hlen', hp⟩ := u.isPort p hport
      exact Or.inr ⟨p, hlen, hlen', hp, by simp [URL.parts, URL.hostName, hport]⟩
  whole := by
    rw [withoutScheme_text, URL.pathText]
    cases hpath : u.path with
    | none => exact Or.inr ⟨by simp [URL.parts, hpath], by simp [URL.parts]⟩
    | some p => exact Or.inl (by simp [URL.parts, hpath])

theorem parseURL_throws (s : List UInt8) : parseURL s = .error .range := by
  rw [parseURL, parseURLWith, hostNameAtoms, Atom.bracket_named]
  rfl

theorem bracket_dashLast : Atom.bracket 45 dashLast = .ok isHostName := by
  have hclass : Atom.bracket 45 dashLast =
      .ok fun c => isAlnum c || (decide (c = 46) || (decide (c = 45) || false)) := rfl
  rw [hclass]
  congr 1
  funext c
  revert c
  decide +kernel

theorem parseURLWith_dashLast (s : List UInt8) :
    parseURLWith dashLast s = .ok (splitURL (URLRegex isHostName) s) := by
  rw [parseURLWith, bracket_dashLast]
  rfl

theorem parseURLWith_text (u : URL) : parseURLWith dashLast u.text = .ok (some u.parts) := by
  rw [parseURLWith_dashLast, splitURL_text]

/-- A text is split as it is to be if and only if it is no URL, of which nothing is asked; with the
dash in the last place every text is. -/
theorem splits_iff (s : List UInt8) :
    (Splits parseURL s ↔ ∀ u : URL, u.text ≠ s) ∧ Splits (parseURLWith dashLast) s := by
  refine ⟨⟨fun h u hu => ?_, fun h => ⟨fun parts hparts => ?_, fun u hu => absurd hu (h u)⟩⟩,
    fun parts hparts => ?_, fun u hu => ⟨u.parts, hu ▸ parseURLWith_text u⟩⟩
  · obtain ⟨parts, hparts⟩ := h.accepts u hu
    rw [parseURL_throws] at hparts
    cases hparts
  · rw [parseURL_throws] at hparts
    cases hparts
  · rw [parseURLWith_dashLast] at hparts
    obtain ⟨u, rfl⟩ := exists_url (Except.ok.inj hparts)
    rw [splitURL_text] at hparts
    obtain rfl : u.parts = parts := Option.some.inj (Except.ok.inj hparts)
    exact splitsInto_parts u

def shortURL : URL where
  scheme := some false
  host := ascii "a"
  port := none
  path := some []
  host_ne := by decide
  isHostName := by decide +kernel
  isPort := by simp
  isLine := by simp

theorem not_splits_short : shortURL.text = ascii "http://a/" ∧
    parseURL (ascii "http://a/") = .error .range ∧ ¬ Splits parseURL (ascii "http://a/") := by
  have htext : shortURL.text = ascii "http://a/" := by decide
  refine ⟨htext, rfl, fun h => ?_⟩
  obtain ⟨parts, hparts⟩ := h.accepts shortURL htext
  cases hparts

end ACENetwork.Http
