import Svr3.Cmd.CronNext

/-!
# The next occurrence

The time that `next_time` gives is the next occurrence if the day is (`Ct.Turn`), and, when something is due this
day, if the minute is: it was chosen before the hour was known.
-/

namespace Svr3.Crontab

/-! ## The clock -/

section clock

variable {e : Ct} {tm : Tm} {j : ℕ}

/-- The hour is not in the list, and there are minutes of the list before and behind this one. -/
structure Ct.Stale (e : Ct) (tm : Tm) : Prop where
  hour : ¬Has e.hour.1 tm.hour
  later : ∃ m, tm.min < m ∧ m < 60 ∧ Has e.minute.1 m
  earlier : ∃ m, m ≤ tm.min ∧ Has e.minute.1 m

/-- A minute of the day that matches and is later than the clock -/
structure Ct.Due (e : Ct) (tm : Tm) (h m : ℕ) : Prop where
  hour_lt : h < 24
  min_lt : m < 60
  hour : Has e.hour.1 h
  min : Has e.minute.1 m
  later : tm.hour * 60 + tm.min < h * 60 + m

/-- What the clock says -/
structure Clock (e : Ct) (tm : Tm) (c : ℕ × ℕ × Bool) : Prop where
  carry : c.2.2 = true → ∀ h m, ¬e.Due tm h m
  due : c.2.2 = false → e.Due tm c.1 c.2.1
  least : c.2.2 = false → ((∀ h m, e.Due tm h m → c.1 * 60 + c.2.1 ≤ h * 60 + m) ↔ ¬e.Stale tm)

/-- The first number from `x` on, or all are below `x` -/
theorem Next.or_below {S : ℕ → Prop} {x y : ℕ} (h : Next S x y) :
    (x ≤ y ∧ ∀ z, S z → x ≤ z → y ≤ z) ∨ (y < x ∧ (∀ z, S z → z < x) ∧ ∀ z, S z → y ≤ z) := by
  rcases h.least with h1 | h1
  · exact .inl h1
  · exact .inr ⟨h1.1 y h.mem, h1⟩

theorem clock_spec (hat : tm.At j) (he : e.NoPoint) : Clock e tm (clock tm e) := by
  have hh := hat.hour
  have hm := hat.min
  have hmin := next_ge_next (f := e.minute) (x := (tm.min + 1) % 60) (by decide) he.minute
  have hminb := next_ge_bounds (f := e.minute) (x := (tm.min + 1) % 60) (by decide) he.minute (by omega)
  rw [clock]
  generalize next_ge ((tm.min + 1) % 60) e.minute.1 = mn at *
  have hhas := hmin.mem
  by_cases hcarry : mn < tm.min + 1
  · -- no minute is left of this hour, and `mn` is the first one
    have hall : (∀ m, m < 60 → Has e.minute.1 m → m ≤ tm.min) ∧ ∀ m, Has e.minute.1 m → mn ≤ m := by
      rcases hmin.or_below with ⟨h1, h2⟩ | ⟨h1, h2, h3⟩
      · have hsixty : tm.min = 59 := by omega
        refine ⟨fun m hlt _ => by omega, fun m hA => h2 m hA ?_⟩
        rw [hsixty]
        exact Nat.zero_le _
      · refine ⟨fun m _ hA => ?_, h3⟩
        have hlt := h2 m hA
        omega
    rw [if_pos hcarry]
    have hhr := next_ge_next (f := e.hour) (x := (tm.hour + 1) % 24) (by decide) he.hour
    have hhrb := next_ge_bounds (f := e.hour) (x := (tm.hour + 1) % 24) (by decide) he.hour (by omega)
    generalize next_ge ((tm.hour + 1) % 24) e.hour.1 = hr at *
    have hstale : ¬e.Stale tm := by
      rintro ⟨-, ⟨m, hlt, h60, hA⟩, -⟩
      exact absurd (hall.1 m h60 hA) (Nat.not_le.mpr hlt)
    have hafter (h m : ℕ) (hd : e.Due tm h m) : tm.hour + 1 ≤ h := by
      have hlater := hd.later
      have hle := hall.1 m hd.min_lt hd.min
      omega
    refine ⟨fun hc h m hd => ?_, fun hc => ?_, fun hc => iff_of_true (fun h m hd => ?_) hstale⟩
    · have hlt : hr < tm.hour + 1 := of_decide_eq_true hc
      have hge := hafter h m hd
      have h24 := hd.hour_lt
      rcases hhr.or_below with ⟨h1, -⟩ | ⟨-, h2, -⟩
      · omega
      · have hh' := h2 h hd.hour
        omega
    · have hge : ¬hr < tm.hour + 1 := of_decide_eq_false hc
      exact ⟨by dsimp only; omega, by dsimp only; omega, hhr.mem, hhas, by dsimp only; omega⟩
    · have hge : ¬hr < tm.hour + 1 := of_decide_eq_false hc
      have hle := hall.2 m hd.min
      have hge' := hafter h m hd
      have h24 := hd.hour_lt
      rcases hhr.or_below with ⟨-, h2⟩ | ⟨h1, -, -⟩
      · have hhr' := h2 h hd.hour (by omega)
        dsimp only
        omega
      · omega
  · -- `mn` is the next minute
    have hmod : (tm.min + 1) % 60 = tm.min + 1 := by omega
    have hnext : ∀ m, Has e.minute.1 m → tm.min < m → mn ≤ m := by
      rcases hmin.or_below with ⟨-, h2⟩ | ⟨h1, -, -⟩
      · exact fun m hA hlt => h2 m hA (by omega)
      · omega
    rw [if_neg hcarry, Nat.add_zero]
    have hhr := next_ge_next (f := e.hour) (x := tm.hour % 24) (by decide) he.hour
    have hhrb := next_ge_bounds (f := e.hour) (x := tm.hour % 24) (by decide) he.hour (by omega)
    rw [Nat.mod_eq_of_lt hh] at hhr hhrb ⊢
    generalize next_ge tm.hour e.hour.1 = hr at *
    have hafter (h m : ℕ) (hd : e.Due tm h m) : tm.hour ≤ h := by
      have hlater := hd.later
      have hlt := hd.min_lt
      omega
    refine ⟨fun hc h m hd => ?_, fun hc => ?_, fun hc => ?_⟩
    · have hlt : hr < tm.hour := of_decide_eq_true hc
      have hge := hafter h m hd
      rcases hhr.or_below with ⟨h1, -⟩ | ⟨-, h2, -⟩
      · omega
      · have hh' := h2 h hd.hour
        omega
    · have hge : ¬hr < tm.hour := of_decide_eq_false hc
      exact ⟨by dsimp only; omega, by dsimp only; omega, hhr.mem, hhas, by dsimp only; omega⟩
    · have hge : ¬hr < tm.hour := of_decide_eq_false hc
      have hleast : ∀ h, Has e.hour.1 h → tm.hour ≤ h → hr ≤ h := by
        rcases hhr.or_below with ⟨-, h2⟩ | ⟨h1, -, -⟩
        · exact h2
        · omega
      constructor
      · rintro hall ⟨hhour, -, m, hlt, hA⟩
        have hne : hr ≠ tm.hour := fun h => hhour (h ▸ hhr.mem)
        have hle := hall hr m ⟨by omega, by omega, hhr.mem, hA, by omega⟩
        dsimp only at hle
        omega
      · intro hstale h m hd
        have hge' := hleast h hd.hour (hafter h m hd)
        have hlater := hd.later
        have hlt := hd.min_lt
        dsimp only
        rcases Nat.lt_or_ge tm.min m with hlt' | hle
        · have hmn := hnext m hd.min hlt'
          omega
        · -- the minute is an earlier one, so the hour is a later one
          by_cases hhour : Has e.hour.1 tm.hour
          · have hhr' := hleast tm.hour hhour (Nat.le_refl _)
            omega
          · exact absurd ⟨hhour, ⟨mn, by omega, by omega, hhas⟩, m, hle, hd.min⟩ hstale

end clock

/-! ## Seconds of the local clock -/

section seconds

variable {e : Ct} {z t t' : ℤ} {s h m D N : ℕ}

/-- An occurrence, by the seconds of the local clock -/
structure Ct.At (e : Ct) (s : ℕ) : Prop where
  sec : s % 60 = 0
  min : Has e.minute.1 (s / 60 % 60)
  hour : Has e.hour.1 (s / 3600 % 24)
  day : e.Matches (s / 86400)

/-- The month of a time -/
def monthAt (z t : ℤ) : ℕ := (dayOf (localSeconds z t / 86400)).1

theorem at_iff (hh : h < 24) (hm : m < 60) :
    e.At (D * 86400 + h * 3600 + m * 60) ↔ Has e.minute.1 m ∧ Has e.hour.1 h ∧ e.Matches D := by
  have hsec : (D * 86400 + h * 3600 + m * 60) % 60 = 0 := by omega
  have hmin : (D * 86400 + h * 3600 + m * 60) / 60 % 60 = m := by omega
  have hhour : (D * 86400 + h * 3600 + m * 60) / 3600 % 24 = h := by omega
  have hday : (D * 86400 + h * 3600 + m * 60) / 86400 = D := by omega
  constructor
  · rintro ⟨-, h1, h2, h3⟩
    rw [hmin] at h1
    rw [hhour] at h2
    rw [hday] at h3
    exact ⟨h1, h2, h3⟩
  · rintro ⟨h1, h2, h3⟩
    refine ⟨hsec, ?_, ?_, ?_⟩
    · rw [hmin]
      exact h1
    · rw [hhour]
      exact h2
    · rw [hday]
      exact h3

end seconds

/-! ## The next occurrence -/

section next

variable {e : Ct} {z t : ℤ} {tm : Tm} {j : ℕ}

/-- Something is due this day and the minute for it is right, or nothing is and the next day is right. -/
inductive Ct.Timely (e : Ct) (z t : ℤ) : Prop
  | today (h m : ℕ) (hm : e.MonthOf (monthAt z t)) (hd : e.DayOf (monthAt z t) (localtime z t).mday)
      (hdue : e.Due (localtime z t) h m) (hstale : ¬e.Stale (localtime z t))
  | turn (hnone : e.MonthOf (monthAt z t) → e.DayOf (monthAt z t) (localtime z t).mday →
      ∀ h m, ¬e.Due (localtime z t) h m) (hturn : e.Turn (monthAt z t) (localtime z t).mday)

end next

end Svr3.Crontab
