import Mathlib
import ACENetwork.Proofs.Http.Url
import ACENetwork.Spec.Net.CommonTools

/-! `URLToHostName` takes the host of every URL out of its text, `parseURL` that of none. -/

namespace ACENetwork.Net

open Backtracking
open Http (ascii isAlpha isDigit isLine schemeText schemePrefix URL URLParts)

def protocolRegex : Regex UInt8 := .group 1 (.seq (.plus (.cls isAlpha)) (.lit (ascii "://")))

theorem isHostName_of_isAlpha {c : UInt8} (h : isAlpha c = true) : Http.isHostName c = true := by
  simp [Http.isHostName, Http.isAlnum, h]

theorem noSeparator_of_isHostName {c : UInt8} (h : Http.isHostName c = true) :
    decide (c ∉ ascii "/:") = true := by
  revert c
  decide +kernel

def protocolGroups (scheme : Option Bool) (g : Groups UInt8) : Groups UInt8 :=
  if scheme = none then g else Function.update g 1 (some (schemeText scheme))

theorem run_protocol (u : URL) {β : Type} {g : Groups UInt8} {k : Backtracking.State UInt8 → Option β} {x : β}
    (hk : k (protocolGroups u.scheme g, u.hostName ++ u.pathText) = some x) :
    (Regex.opt protocolRegex).run (g, u.text) k = some x := by
  -- a word of letters in front of `://`
  have hword : ∀ w : List UInt8, w ≠ [] → (∀ c ∈ w, isAlpha c = true) →
      u.text = w ++ (ascii "://" ++ (u.hostName ++ u.pathText)) →
      protocolGroups u.scheme g = Function.update g 1 (some (w ++ ascii "://")) →
      (Regex.opt protocolRegex).run (g, u.text) k = some x := by
    intro w hne hw htext hgroups
    refine Regex.run_alt_left ?_
    rw [protocolRegex, Regex.run_group, Regex.run_seq, htext]
    refine Regex.run_plus hne hw ?_ ?_
    · intro c hc
      obtain rfl : 58 = c := Option.some.inj hc
      decide
    · rw [Regex.run_lit, ← List.append_assoc, Regex.capture_append, ← hgroups]
      exact hk
  cases hscheme : u.scheme with
  | none =>
    have htext : u.text = u.hostName ++ u.pathText := by simp [URL.text, schemeText, hscheme]
    rw [hscheme] at hk
    rw [Regex.opt, Regex.run_alt_right, htext]
    · exact hk
    · intro q hq
      obtain ⟨-, ⟨w, v, ⟨-, hw⟩, rfl, rfl⟩, -, hs⟩ := (Regex.takes_group
        (Regex.plain_seq (Regex.plain_plus isAlpha) (Regex.plain_lit (ascii "://"))) 1 _ _ _).1 hq
      rw [htext, List.append_assoc] at hs
      exact (u.not_scheme (fun c hc => isHostName_of_isAlpha (hw c hc)) hs).elim
  | some ssl =>
    cases ssl with
    | false =>
      refine hword (ascii "http") (by decide) (by decide +kernel) ?_ ?_
      · simp [URL.text, schemeText, hscheme, ascii]
      · simp [protocolGroups, schemeText, hscheme, ascii]
    | true =>
      refine hword (ascii "https") (by decide) (by decide +kernel) ?_ ?_
      · simp [URL.text, schemeText, hscheme, ascii]
      · simp [protocolGroups, schemeText, hscheme, ascii]

def hostNameGroups (u : URL) : Groups UInt8 :=
  let g := Function.update (protocolGroups u.scheme fun _ => none) 2 (some u.host)
  let g := u.port.elim g fun p => Function.update g 3 (some (58 :: p))
  u.path.elim g fun p => Function.update g 4 (some (47 :: p))

theorem fullMatch_text (u : URL) : hostNameRegex.fullMatch u.text = some (hostNameGroups u) := by
  rw [Regex.fullMatch, hostNameRegex, Regex.run_seq]
  refine run_protocol u ?_
  rw [Regex.run_seq]
  refine u.run_host (fun c hc => noSeparator_of_isHostName (u.isHostName c hc)) (by decide)
    (by decide) ?_
  rw [Regex.run_seq]
  cases hport : u.port with
  | none =>
    have hrest : u.behindHost = u.pathText := by rw [URL.behindHost, hport]; rfl
    rw [hrest, Regex.opt, Regex.run, Regex.run_group, u.run_colon_pathText, Option.none_or, Regex.run]
    refine u.run_path ?_
    rw [if_pos rfl, hostNameGroups, hport]
    rfl
  | some p =>
    have hrest : u.behindHost = ascii ":" ++ (p ++ u.pathText) := by rw [URL.behindHost, hport]; rfl
    refine Regex.run_alt_left ?_
    rw [hrest, Regex.run_group, Regex.run_seq, Regex.run_lit]
    refine u.run_portRegex hport ?_
    rw [← List.append_assoc, Regex.capture_append]
    refine u.run_path ?_
    rw [if_pos rfl, hostNameGroups, hport]
    rfl

def Agrees (parse : List UInt8 → Except Atom.Error (Option URLParts)) (s : List UInt8) : Prop :=
  ∃ parts, parse s = .ok (some parts) ∧ URLToHostName s false true = parts.hostName ∧
    URLToHostName s true true = schemePrefix s ++ parts.hostName

end ACENetwork.Net
