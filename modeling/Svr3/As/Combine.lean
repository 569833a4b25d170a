import Svr3.As.SectionsRun

/-!
# Differences of labels

`combine` of `m68k/M68020/parse.y`. The difference of two labels is taken when it is read, from the least
addresses that the labels can have then.
-/

namespace Svr3.As.Sections

open List

variable {cpu : Processor} {junk : Asm → Sditype} {a b : Asm} {X : Sect} {st : State} {l1 l2 : ℕ}

/-- Instruction `k` is between two labels of a file -/
def Between (text : List Code) (l1 l2 k : ℕ) : Prop :=
  ∃ pre mid post d, (text = pre ++ .label l1 :: (mid ++ .label l2 :: post) ∨
    text = pre ++ .label l2 :: (mid ++ .label l1 :: post)) ∧ .inst d (.opt k) ∈ mid

/-! ## The constant -/

/-- Where the labels of a section are -/
theorem Good.at (h : Good cpu a) {pre post : List Code} {l : ℕ} (ht : a.text X = pre ++ .label l :: post) :
    At a.st X l (sizes cpu a.st pre) := by
  by_cases hX : X = .text 0
  · subst hX
    have hlab := h.inv.label pre l post ht
    have hname : a.home.symtab (.name l) = a.st.symtab (.name l) := back_name l
    have hsizes : sizes cpu a.home pre = sizes cpu a.st pre := sizes_congr cpu rfl _
    rw [hname, hsizes] at hlab
    unfold At
    rw [hlab]
    exact ⟨rfl, rfl, rfl⟩
  · exact h.label X hX pre l post ht

theorem pass1_append :
    ∀ (pre post : List Stmt) (s : Asm), Fits cpu junk s (pre ++ post) → pass1 cpu junk s pre = .ok a →
      Fits cpu junk s pre ∧ Fits cpu junk a post ∧
        pass1 cpu junk s (pre ++ post) = pass1 cpu junk a post
  | [], post, s, hfits, ha => by
    cases ha
    exact ⟨trivial, hfits, rfl⟩
  | stmt :: pre, post, s, hfits, ha => by
    unfold pass1 at ha
    cases hs : statement cpu junk s stmt with
    | error e =>
      rw [hs] at ha
      cases ha
    | ok t =>
      rw [hs] at ha
      obtain ⟨h1, h2, h3⟩ := pass1_append pre post t (hfits.2 t hs) ha
      refine ⟨.step hfits.1 hs h1, h2, ?_⟩
      rw [cons_append, pass1, hs]
      exact h3

end Svr3.As.Sections
