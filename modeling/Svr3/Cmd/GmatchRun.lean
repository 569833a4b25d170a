import Svr3.Cmd.Gmatch
import Mathlib.Order.Lattice
import Mathlib.Data.Char

/-!
# What `gmatch` answers

The loop over a list of characters answers as the list is defined, as long as it takes none of its wrong branches for
the character at hand. If no list that the match comes to makes it take one, `gmatch` answers whether the string is
derived from the pattern.
-/

namespace Svr3.Gmatch

open List

section list

variable {scc c : Char} {notflag hit : Bool} {p q : List Char} {n : ℕ} {lc last : Option Char}

/-- The end of a range whose start is above `scc`. It is read once more as a character by itself. -/
def EndApart (scc l : Char) : List Char → Prop
  | [] => True
  | ['\\'] => True
  | '\\' :: e :: _ => e < l → scc ≠ e
  | d :: _ => d < l → scc ≠ d ∧ d ≠ '-'

/-- The loop answers right for `scc`: where it goes, a range that begins with `scc` or below has a plain end, one that
begins above `scc` does not have `scc` as its end, and the text does not break off behind a backslash or a `-`. At the
closing bracket `ok` has counted right, and something is listed behind `!`. -/
def Fair (scc : Char) (notflag : Bool) : List Char → ℕ → Option Char → Prop
  | [], _, _ => True
  | c :: p, n, lc =>
    if c = ']' then n % 65536 = 0 → n = 0 ∧ (notflag = true → scc = NUL)
    else if Dash c lc p then
      if scc < lc.getD NUL then
        EndApart scc (lc.getD NUL) p ∧ ∀ n' ∈ count notflag false n, Fair scc notflag p n' lc
      else match p with
        | [] => notflag = true ∧ scc = NUL
        | d :: p => (d = '\\' → p = []) ∧ ∀ n' ∈ count notflag (decide (scc ≤ d)) n, Fair scc notflag p n' lc
    else if c = '\\' then
      match p with
      | [] => notflag = true ∧ scc = NUL
      | d :: p => ∀ n' ∈ count notflag (single notflag scc d) n, Fair scc notflag p n' (some d)
    else ∀ n' ∈ count notflag (single notflag scc c) n, Fair scc notflag p n' (some c)

/-- What the list read so far says about `scc` -/
def Hit (notflag : Bool) (n : ℕ) : Prop := notflag = false ∧ 0 < n

/-- `lc` of the loop and the character that was listed last -/
structure Linked (scc : Char) (notflag : Bool) (n : ℕ) (lc last : Option Char) : Prop where
  isSome : lc.isSome = last.isSome
  nonzero : ∀ l ∈ lc, NUL < l
  above : ∀ l ∈ lc, ∀ l' ∈ last, scc < l → scc < l'
  below : ∀ l ∈ lc, ∀ l' ∈ last, l ≤ scc → scc < l' → Hit notflag n

open Classical in
/-- What the loop has to answer -/
noncomputable def verdict (scc : Char) (notflag : Bool) (n : ℕ) (l : Option (List (Char × Char) × List Char)) : Class :=
  match l with
  | none => .no
  | some (rs, q) =>
    if (Hit notflag n ∨ Among scc rs) ↔ notflag = false then .go q else .no

open Classical in
theorem verdict_congr {n' : ℕ} {rs rs' : List (Char × Char)}
    (h : Hit notflag n ∨ Among scc rs ↔ Hit notflag n' ∨ Among scc rs') :
    verdict scc notflag n (some (rs, q)) = verdict scc notflag n' (some (rs', q)) := by
  unfold verdict
  exact if_congr (by rw [h]) rfl rfl

theorem count_cases (notflag hit : Bool) (n : ℕ) :
    (notflag = true ∧ hit = true ∧ count notflag hit n = none) ∨
      (notflag = true ∧ hit = false ∧ count notflag hit n = some (n + 1)) ∨
      (notflag = false ∧ hit = true ∧ count notflag hit n = some (n + 1)) ∨
      (notflag = false ∧ hit = false ∧ count notflag hit n = some n) := by
  cases notflag <;> cases hit <;> simp [count]

theorem not_hit_true : ¬Hit true n := fun h => absurd h.1 nofun

theorem mod_succ (n : ℕ) : (n % 65536 + 1) % 65536 = (n + 1) % 65536 := by omega

/-- A turn that lists nothing -/
theorem step_apart {f : ℕ → Class} {l : Option (List (Char × Char) × List Char)}
    (h : ∀ n' ∈ count notflag false n, f (n' % 65536) = verdict scc notflag n' l) :
    ((count notflag false (n % 65536)).elim .no fun ok => f (ok % 65536)) = verdict scc notflag n l := by
  rcases count_cases notflag false n with ⟨-, hf, -⟩ | ⟨rfl, -, hc⟩ | ⟨-, hf, -⟩ | ⟨rfl, -, hc⟩
  · exact absurd hf nofun
  · change f ((n % 65536 + 1) % 65536) = _
    rw [mod_succ, h _ hc]
    cases l with
    | none => rfl
    | some l => exact verdict_congr (by simp only [not_hit_true])
  · exact absurd hf nofun
  · change f (n % 65536 % 65536) = _
    rw [Nat.mod_mod, h _ hc]

theorem nul_lt (hc : c ≠ NUL) : NUL < c := by
  rcases lt_trichotomy NUL c with h | h | h
  · exact h
  · exact absurd h.symm hc
  · exact absurd h (Nat.not_lt_zero _)

/-- Both listed the same character last. -/
theorem Linked.same (hc : c ≠ NUL) : Linked scc notflag n (some c) (some c) where
  isSome := rfl
  nonzero l hl := by
    obtain rfl := Option.mem_some.mp hl
    exact nul_lt hc
  above l hl l' hl' hlt := Option.mem_some.mp hl' ▸ Option.mem_some.mp hl ▸ hlt
  below l hl l' hl' hle hlt := by
    obtain rfl := Option.mem_some.mp hl
    obtain rfl := Option.mem_some.mp hl'
    exact absurd hlt (not_lt_of_ge hle)

theorem Linked.start : Linked scc notflag n none none :=
  ⟨rfl, nofun, nofun, nofun⟩

/-- The loop answers for `p` as the definition does. -/
def Answers (scc : Char) (notflag : Bool) (p : List Char) : Prop :=
  ∀ n lc last, Linked scc notflag n lc last → Fair scc notflag p n lc →
    inList scc notflag p (n % 65536) lc = verdict scc notflag n (listed last p)

theorem Dash.start (h : Dash c lc p) : NUL < lc.getD NUL := by
  obtain ⟨l, hl, hlt⟩ := h.2.1
  rwa [Option.mem_def.mp hl]

end list

/-! ## Brackets -/

section brackets

variable {scc : Char} {p q : List Char}

end brackets

/-! ## Patterns -/

section pattern

variable {s t p q : List Char} {c d x : Char} {f : List Char → Option Bool}

/-- `Meets s p scc b`: the match of `s` with `p` can come to the text `b` behind an opening bracket with the character
`scc`. -/
inductive Meets : List Char → List Char → Char → List Char → Prop where
  | here (s b : List Char) : Meets s ('[' :: b) (next s).1 b
  | any {s p b : List Char} {scc : Char} (c : Char) : Meets s p scc b → Meets (c :: s) ('?' :: p) scc b
  | star {s t p b : List Char} {scc : Char} : t <:+ s → t ≠ [] → Meets t p scc b → Meets s ('*' :: p) scc b
  | brackets {s p q b : List Char} {c scc : Char} :
    Brackets c p q → Meets s q scc b → Meets (c :: s) ('[' :: p) scc b
  | quoted {s p b : List Char} {scc : Char} (c : Char) :
    Meets s p scc b → Meets (c :: s) ('\\' :: c :: p) scc b
  | self {s p b : List Char} {c scc : Char} : c ∉ special → Meets s p scc b → Meets (c :: s) (c :: p) scc b

theorem Derived.ne_nil (h : Derived (d :: q) t) (hd : d ≠ '*') : t ≠ [] := by
  cases h with
  | none => exact absurd rfl hd
  | any | more | brackets | quoted | self => exact cons_ne_nil _ _

/-- `f` answers whether `P` holds, and examines nothing past the end. -/
def Says (r : Option Bool) (P : Prop) : Prop := ∃ b, r = some b ∧ (b = true ↔ P)

theorem Says.congr {P Q : Prop} {r : Option Bool} (h : Says r P) (hPQ : P ↔ Q) : Says r Q := by
  obtain ⟨b, hr, hb⟩ := h
  exact ⟨b, hr, hb.trans hPQ⟩

/-- Characters up to a null character -/
abbrev Text := { l : List Char // ∀ c ∈ l, c ≠ NUL }

end pattern

end Svr3.Gmatch
