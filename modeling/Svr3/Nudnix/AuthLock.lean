import Mathlib.Data.Fintype.Card
import Svr3.Lib.Census
import Svr3.Lib.Run

/-!
# The lock of the id tables in `nudnix/auth.c`

Readers share the lock and writers have it alone. A process runs until it sleeps; a signal takes it out of its
sleep, and out of the system call.
-/

namespace Svr3.Auth

/-- What the processes sleep on: readers on `Tabrlock`, and writers on `Tabwlock` -/
inductive Chan
  | Tabrlock
  | Tabwlock
  deriving DecidableEq

/-- Where a process is: in `rd_lock` or `wr_lock` asleep on its channel or to run, or outside with the lock
or without -/
inductive Phase
  | out
  | asleep (chan : Chan)
  | awake (chan : Chan)
  | reading
  | writing
  deriving DecidableEq

structure Lock (P : Type*) where
  Tabwlock : ℤ
  Tabrlock : ℤ
  Want_wr : ℤ
  Want_rd : ℤ
  phase : P → Phase

namespace Lock

variable {P : Type*} [DecidableEq P]

def go (p : P) (ph : Phase) (s : Lock P) : Lock P := { s with phase := Function.update s.phase p ph }

def wakeup (chan : Chan) (s : Lock P) : Lock P :=
  { s with phase := fun p => if s.phase p = .asleep chan then .awake chan else s.phase p }

/-- The loop of `rd_lock` and what is behind it -/
def rdLoop (p : P) (s : Lock P) : Lock P :=
  if s.Tabrlock ≠ 0 then s.go p (.asleep .Tabrlock)
  else ({ s with Tabwlock := s.Tabwlock + 1, Want_rd := s.Want_rd - 1 } : Lock P).go p .reading

def rd_lock (p : P) (s : Lock P) : Lock P :=
  rdLoop p (({ s with Want_rd := s.Want_rd + 1 } : Lock P).go p (.awake .Tabrlock))

def rd_unlock (p : P) (s : Lock P) : Lock P :=
  let s := ({ s with Tabwlock := s.Tabwlock - 1 } : Lock P).go p .out
  if s.Tabwlock = 0 ∧ s.Want_wr ≠ 0 then wakeup .Tabwlock s
  else if s.Want_rd ≠ 0 then wakeup .Tabrlock s
  else s

/-- The loop of `wr_lock` and what is behind it -/
def wrLoop (p : P) (s : Lock P) : Lock P :=
  if s.Tabwlock ≠ 0 ∨ s.Tabrlock ≠ 0 then s.go p (.asleep .Tabwlock)
  else ({ s with Tabrlock := s.Tabrlock + 1, Want_wr := s.Want_wr - 1 } : Lock P).go p .writing

def wr_lock (p : P) (s : Lock P) : Lock P :=
  wrLoop p (({ s with Want_wr := s.Want_wr + 1 } : Lock P).go p (.awake .Tabwlock))

def wr_unlock (p : P) (s : Lock P) : Lock P :=
  let s := ({ s with Tabrlock := s.Tabrlock - 1 } : Lock P).go p .out
  if s.Want_wr ≠ 0 then wakeup .Tabwlock s
  else if s.Want_rd ≠ 0 then wakeup .Tabrlock s
  else s

end Lock

/-- A process calls a routine, runs on after its sleep, or leaves the sleep for a signal by `longjmp`. -/
inductive Turn (P : Type*)
  | rd_lock (p : P)
  | rd_unlock (p : P)
  | wr_lock (p : P)
  | wr_unlock (p : P)
  | resume (p : P)
  | signal (p : P)
  deriving DecidableEq

def Lock.next {P : Type*} [DecidableEq P] (s : Lock P) : Turn P → Option (Lock P)
  | .rd_lock p => if s.phase p = .out then some (s.rd_lock p) else none
  | .rd_unlock p => if s.phase p = .reading then some (s.rd_unlock p) else none
  | .wr_lock p => if s.phase p = .out then some (s.wr_lock p) else none
  | .wr_unlock p => if s.phase p = .writing then some (s.wr_unlock p) else none
  | .resume p =>
    match s.phase p with
    | .awake .Tabrlock => some (s.rdLoop p)
    | .awake .Tabwlock => some (s.wrLoop p)
    | _ => none
  | .signal p =>
    match s.phase p with
    | .asleep _ => some (s.go p .out)
    | .awake _ => some (s.go p .out)
    | _ => none

/-- The process waits in the routine that sleeps on the channel. -/
def Waits (chan : Chan) (ph : Phase) : Prop := ph = .asleep chan ∨ ph = .awake chan

instance (chan : Chan) : DecidablePred (Waits chan) := fun _ => inferInstanceAs (Decidable (_ ∨ _))

@[simp] theorem waits_asleep (chan chan' : Chan) : Waits chan (.asleep chan') ↔ chan' = chan := by
  simp [Waits]

@[simp] theorem waits_awake (chan chan' : Chan) : Waits chan (.awake chan') ↔ chan' = chan := by
  simp [Waits]

@[simp] theorem waits_out (chan : Chan) : ¬ Waits chan .out := by simp [Waits]

@[simp] theorem waits_reading (chan : Chan) : ¬ Waits chan .reading := by simp [Waits]

@[simp] theorem waits_writing (chan : Chan) : ¬ Waits chan .writing := by simp [Waits]

theorem waits_wakeup {P : Type*} (chan chan' : Chan) (s : Lock P) (p : P) :
    Waits chan ((s.wakeup chan').phase p) ↔ Waits chan (s.phase p) := by
  rw [Lock.wakeup, Waits, Waits]
  dsimp only
  split
  next h =>
    rw [h]
    simp
  next => rfl

theorem holds_wakeup {P : Type*} (chan : Chan) (s : Lock P) (p : P) :
    ((s.wakeup chan).phase p = .reading ↔ s.phase p = .reading) ∧
      ((s.wakeup chan).phase p = .writing ↔ s.phase p = .writing) := by
  rw [Lock.wakeup]
  dsimp only
  split
  next h =>
    rw [h]
    simp
  next => exact ⟨Iff.rfl, Iff.rfl⟩

variable {P : Type*} [DecidableEq P] [Fintype P]

/-- The counts of those with the lock, of whom one writes alone -/
structure Excl (s : Lock P) : Prop where
  reading : s.Tabwlock = census s.phase (· = .reading)
  writing : s.Tabrlock = census s.phase (· = .writing)
  one : census s.phase (· = .writing) ≤ 1
  alone : 0 < census s.phase (· = .writing) → census s.phase (· = .reading) = 0

/-- The counts of those who wait, and the one who runs while others sleep on a lock that is free -/
structure Awaits (s : Lock P) : Prop where
  want_rd : s.Want_rd = census s.phase (Waits .Tabrlock)
  want_wr : s.Want_wr = census s.phase (Waits .Tabwlock)
  free : s.Tabrlock = 0 → s.Tabwlock = 0 → (∃ p chan, s.phase p = .asleep chan) →
    ∃ q chan, s.phase q = .awake chan

namespace Excl

variable {s : Lock P} {p : P}

omit [DecidableEq P] in
/-- The counts of those who wait do not matter. -/
theorem counts {s' : Lock P} (h : Excl s) (hr : s'.Tabwlock = s.Tabwlock) (hw : s'.Tabrlock = s.Tabrlock)
    (hph : s'.phase = s.phase) : Excl s' :=
  ⟨by rw [hr, hph, h.reading], by rw [hw, hph, h.writing], by rw [hph]; exact h.one,
    by rw [hph]; exact h.alone⟩

omit [DecidableEq P] in
theorem wakeup (h : Excl s) (chan : Chan) : Excl (s.wakeup chan) := by
  have hr : census (s.wakeup chan).phase (· = .reading) = census s.phase (· = .reading) :=
    census_congr fun p => (holds_wakeup chan s p).1
  have hw : census (s.wakeup chan).phase (· = .writing) = census s.phase (· = .writing) :=
    census_congr fun p => (holds_wakeup chan s p).2
  exact ⟨hr ▸ h.reading, hw ▸ h.writing, hw ▸ h.one, by rw [hw, hr]; exact h.alone⟩

/-- A process without the lock goes to a phase without it. -/
theorem go (h : Excl s) (ph : Phase) (hp : s.phase p ≠ .reading ∧ s.phase p ≠ .writing)
    (hph : ph ≠ .reading ∧ ph ≠ .writing) : Excl (s.go p ph) := by
  have hr : census (s.go p ph).phase (· = .reading) = census s.phase (· = .reading) := by
    have hu := census_update (f := s.phase) (q := (· = .reading)) p ph
    rw [if_neg hp.1, if_neg hph.1] at hu
    exact hu
  have hw : census (s.go p ph).phase (· = .writing) = census s.phase (· = .writing) := by
    have hu := census_update (f := s.phase) (q := (· = .writing)) p ph
    rw [if_neg hp.2, if_neg hph.2] at hu
    exact hu
  exact ⟨hr ▸ h.reading, hw ▸ h.writing, hw ▸ h.one, by rw [hw, hr]; exact h.alone⟩

/-- A reader comes in while nobody writes, or one goes. -/
theorem read (h : Excl s) (ph : Phase) (hp : s.phase p ≠ .writing) (hph : ph ≠ .writing)
    (hnone : ph = .reading → s.Tabrlock = 0) {n : ℤ}
    (hn : n = s.Tabwlock + (if ph = .reading then 1 else 0) - if s.phase p = .reading then 1 else 0)
    (m : ℤ) : Excl (({ s with Tabwlock := n, Want_rd := m } : Lock P).go p ph) := by
  have hr := census_update (f := s.phase) (q := (· = .reading)) p ph
  have hw := census_update (f := s.phase) (q := (· = .writing)) p ph
  rw [if_neg hp, if_neg hph] at hw
  have hw' : census (Function.update s.phase p ph) (· = .writing) = census s.phase (· = .writing) := hw
  have hreading := h.reading
  have hwriting := h.writing
  refine ⟨?_, hw'.symm ▸ hwriting, hw'.symm ▸ h.one, fun hpos => ?_⟩
  · change n = _
    rw [hn, hreading]
    change _ = ((census (Function.update s.phase p ph) (· = .reading) : ℕ) : ℤ)
    split_ifs at hr ⊢ <;> omega
  · change 0 < census (Function.update s.phase p ph) (· = .writing) at hpos
    rw [hw'] at hpos
    have hzero := h.alone hpos
    change census (Function.update s.phase p ph) (· = .reading) = 0
    have hne : ph ≠ .reading := by
      intro heq
      have hnow := hnone heq
      omega
    rw [if_neg hne] at hr
    omega

/-- A writer comes in while the lock is free, or the one goes. -/
theorem write (h : Excl s) (ph : Phase) (hp : s.phase p ≠ .reading) (hph : ph ≠ .reading)
    (hnone : ph = .writing → s.Tabrlock = 0 ∧ s.Tabwlock = 0) {n : ℤ}
    (hn : n = s.Tabrlock + (if ph = .writing then 1 else 0) - if s.phase p = .writing then 1 else 0)
    (m : ℤ) : Excl (({ s with Tabrlock := n, Want_wr := m } : Lock P).go p ph) := by
  have hr := census_update (f := s.phase) (q := (· = .reading)) p ph
  have hw := census_update (f := s.phase) (q := (· = .writing)) p ph
  rw [if_neg hp, if_neg hph] at hr
  have hr' : census (Function.update s.phase p ph) (· = .reading) = census s.phase (· = .reading) := hr
  have hreading := h.reading
  have hwriting := h.writing
  have hone := h.one
  refine ⟨hr'.symm ▸ hreading, ?_, ?_, fun hpos => ?_⟩
  · change n = _
    rw [hn, hwriting]
    change _ = ((census (Function.update s.phase p ph) (· = .writing) : ℕ) : ℤ)
    split_ifs at hw ⊢ <;> omega
  · change census (Function.update s.phase p ph) (· = .writing) ≤ 1
    by_cases heq : ph = .writing
    · have hfree := hnone heq
      rw [if_pos heq] at hw
      omega
    · rw [if_neg heq] at hw
      omega
  · change census (Function.update s.phase p ph) (· = .reading) = 0
    rw [hr']
    by_cases heq : ph = .writing
    · have hfree := hnone heq
      omega
    · apply h.alone
      change 0 < census (Function.update s.phase p ph) (· = .writing) at hpos
      rw [if_neg heq] at hw
      omega

theorem rdLoop (h : Excl s) (hp : s.phase p = .awake .Tabrlock) : Excl (s.rdLoop p) := by
  rw [Lock.rdLoop]
  split
  next => exact h.go _ (by rw [hp]; exact ⟨nofun, nofun⟩) ⟨nofun, nofun⟩
  next hfree =>
    apply h.read .reading (by rw [hp]; nofun) nofun fun _ => not_not.mp hfree
    rw [hp, if_pos rfl, if_neg nofun]
    omega

theorem wrLoop (h : Excl s) (hp : s.phase p = .awake .Tabwlock) : Excl (s.wrLoop p) := by
  rw [Lock.wrLoop]
  split
  next => exact h.go _ (by rw [hp]; exact ⟨nofun, nofun⟩) ⟨nofun, nofun⟩
  next hfree =>
    apply h.write .writing (by rw [hp]; nofun) nofun (fun _ => by omega)
    rw [hp, if_pos rfl, if_neg nofun]
    omega

theorem rd_unlock (h : Excl s) (hp : s.phase p = .reading) : Excl (s.rd_unlock p) := by
  have hout : Excl (({ s with Tabwlock := s.Tabwlock - 1 } : Lock P).go p .out) := by
    apply h.read .out (by rw [hp]; nofun) nofun nofun
    rw [hp, if_pos rfl, if_neg nofun]
    omega
  rw [Lock.rd_unlock]
  split_ifs
  · exact hout.wakeup _
  · exact hout.wakeup _
  · exact hout

theorem wr_unlock (h : Excl s) (hp : s.phase p = .writing) : Excl (s.wr_unlock p) := by
  have hout : Excl (({ s with Tabrlock := s.Tabrlock - 1 } : Lock P).go p .out) := by
    apply h.write .out (by rw [hp]; nofun) nofun nofun
    rw [hp, if_pos rfl, if_neg nofun]
    omega
  rw [Lock.wr_unlock]
  split_ifs
  · exact hout.wakeup _
  · exact hout.wakeup _
  · exact hout

/-- Each turn keeps the counts of those with the lock, signals too. -/
theorem step {s' : Lock P} {a : Turn P} (h : Excl s) (hs : s.next a = some s') : Excl s' := by
  cases a with
  | rd_lock p =>
    rw [Lock.next] at hs
    split at hs
    next hp =>
      obtain rfl := Option.some.inj hs
      have hcounts : Excl ({ s with Want_rd := s.Want_rd + 1 } : Lock P) := h.counts rfl rfl rfl
      have hout : ({ s with Want_rd := s.Want_rd + 1 } : Lock P).phase p = .out := hp
      have hawake := hcounts.go (.awake .Tabrlock) (by rw [hout]; exact ⟨nofun, nofun⟩) ⟨nofun, nofun⟩
      exact hawake.rdLoop (Function.update_self _ _ _)
    next => exact absurd hs nofun
  | rd_unlock p =>
    rw [Lock.next] at hs
    split at hs
    next hp => exact Option.some.inj hs ▸ h.rd_unlock hp
    next => exact absurd hs nofun
  | wr_lock p =>
    rw [Lock.next] at hs
    split at hs
    next hp =>
      obtain rfl := Option.some.inj hs
      have hcounts : Excl ({ s with Want_wr := s.Want_wr + 1 } : Lock P) := h.counts rfl rfl rfl
      have hout : ({ s with Want_wr := s.Want_wr + 1 } : Lock P).phase p = .out := hp
      have hawake := hcounts.go (.awake .Tabwlock) (by rw [hout]; exact ⟨nofun, nofun⟩) ⟨nofun, nofun⟩
      exact hawake.wrLoop (Function.update_self _ _ _)
    next => exact absurd hs nofun
  | wr_unlock p =>
    rw [Lock.next] at hs
    split at hs
    next hp => exact Option.some.inj hs ▸ h.wr_unlock hp
    next => exact absurd hs nofun
  | resume p =>
    rw [Lock.next] at hs
    split at hs
    next hp => exact Option.some.inj hs ▸ h.rdLoop hp
    next hp => exact Option.some.inj hs ▸ h.wrLoop hp
    next => exact absurd hs nofun
  | signal p =>
    rw [Lock.next] at hs
    split at hs
    next hp => exact Option.some.inj hs ▸ h.go _ (by rw [hp]; exact ⟨nofun, nofun⟩) ⟨nofun, nofun⟩
    next hp => exact Option.some.inj hs ▸ h.go _ (by rw [hp]; exact ⟨nofun, nofun⟩) ⟨nofun, nofun⟩
    next => exact absurd hs nofun

end Excl

namespace Awaits

variable {s : Lock P} {p : P}

/-- How the counts of those who wait change with one process -/
theorem update (f : P → Phase) (p : P) (ph : Phase) (chan : Chan) :
    census (Function.update f p ph) (Waits chan) + (if Waits chan (f p) then 1 else 0) =
      census f (Waits chan) + if Waits chan ph then 1 else 0 :=
  census_update p ph

omit [DecidableEq P] in
/-- Where one who waits runs, nobody sleeps on a free lock for good. -/
theorem of_awake {chan : Chan} (hrd : s.Want_rd = census s.phase (Waits .Tabrlock))
    (hwr : s.Want_wr = census s.phase (Waits .Tabwlock)) (hp : s.phase p = .awake chan) : Awaits s :=
  ⟨hrd, hwr, fun _ _ _ => ⟨p, chan, hp⟩⟩

omit [DecidableEq P] in
/-- A wakeup on a channel that somebody waits on leaves one who runs. -/
theorem wakeup {chan : Chan} (hrd : s.Want_rd = census s.phase (Waits .Tabrlock))
    (hwr : s.Want_wr = census s.phase (Waits .Tabwlock)) (hpos : 0 < census s.phase (Waits chan)) :
    Awaits (s.wakeup chan) := by
  obtain ⟨p, hp⟩ := census_pos.mp hpos
  have hsame (chan' : Chan) :
      census (s.wakeup chan).phase (Waits chan') = census s.phase (Waits chan') :=
    census_congr fun p => waits_wakeup chan' chan s p
  have hawake : (s.wakeup chan).phase p = .awake chan := by
    rw [Lock.wakeup]
    dsimp only
    rcases hp with hp | hp
    · rw [if_pos hp]
    · rw [hp, if_neg nofun]
  exact of_awake (by rw [hsame]; exact hrd) (by rw [hsame]; exact hwr) hawake

omit [DecidableEq P] in
/-- A process with the lock goes, and what it wakes up is enough. -/
theorem unlock (hrd : s.Want_rd = census s.phase (Waits .Tabrlock))
    (hwr : s.Want_wr = census s.phase (Waits .Tabwlock)) {c : Prop} [Decidable c]
    (hc : s.Tabwlock = 0 → s.Want_wr ≠ 0 → c) (hc' : c → s.Want_wr ≠ 0) :
    Awaits (if c then s.wakeup .Tabwlock else if s.Want_rd ≠ 0 then s.wakeup .Tabrlock else s) := by
  split_ifs with h1 h2
  · have hne := hc' h1
    exact wakeup hrd hwr (by omega)
  · exact wakeup hrd hwr (by omega)
  · refine ⟨hrd, hwr, fun _ hfree => ?_⟩
    rintro ⟨p, chan, hp⟩
    have hwr0 : s.Want_wr = 0 := by
      by_contra hne
      exact h1 (hc hfree hne)
    cases chan with
    | Tabrlock =>
      have hpos := census_pos.mpr ⟨p, show Waits .Tabrlock (s.phase p) from .inl hp⟩
      omega
    | Tabwlock =>
      have hpos := census_pos.mpr ⟨p, show Waits .Tabwlock (s.phase p) from .inl hp⟩
      omega

theorem rdLoop (he : Excl s) (h : Awaits s) (hp : s.phase p = .awake .Tabrlock) :
    Awaits (s.rdLoop p) := by
  have hrd := h.want_rd
  have hwr := h.want_wr
  have hreading := he.reading
  have hr (ph : Phase) (chan : Chan) := update s.phase p ph chan
  rw [hp] at hr
  rw [Lock.rdLoop]
  split
  next hbusy =>
    have hrd' := hr (.asleep .Tabrlock) .Tabrlock
    have hwr' := hr (.asleep .Tabrlock) .Tabwlock
    simp at hrd' hwr'
    exact ⟨hrd.trans (congrArg _ hrd'.symm), hwr.trans (congrArg _ hwr'.symm),
      fun hfree => absurd hfree hbusy⟩
  next hfree =>
    have hrd' := hr .reading .Tabrlock
    have hwr' := hr .reading .Tabwlock
    simp at hrd' hwr'
    refine ⟨?_, hwr.trans (congrArg _ hwr'.symm), fun _ hnone => ?_⟩
    · change s.Want_rd - 1 = ((census (Function.update s.phase p .reading) (Waits .Tabrlock) : ℕ) : ℤ)
      omega
    · change s.Tabwlock + 1 = 0 at hnone
      omega

theorem wrLoop (he : Excl s) (h : Awaits s) (hp : s.phase p = .awake .Tabwlock) :
    Awaits (s.wrLoop p) := by
  have hrd := h.want_rd
  have hwr := h.want_wr
  have hwriting := he.writing
  have hr (ph : Phase) (chan : Chan) := update s.phase p ph chan
  rw [hp] at hr
  rw [Lock.wrLoop]
  split
  next hbusy =>
    have hrd' := hr (.asleep .Tabwlock) .Tabrlock
    have hwr' := hr (.asleep .Tabwlock) .Tabwlock
    simp at hrd' hwr'
    refine ⟨hrd.trans (congrArg _ hrd'.symm), hwr.trans (congrArg _ hwr'.symm), fun h1 h2 => ?_⟩
    exact (hbusy.elim (fun hne => hne h2) fun hne => hne h1).elim
  next hfree =>
    have hrd' := hr .writing .Tabrlock
    have hwr' := hr .writing .Tabwlock
    simp at hrd' hwr'
    refine ⟨hrd.trans (congrArg _ hrd'.symm), ?_, fun hnone => ?_⟩
    · change s.Want_wr - 1 = ((census (Function.update s.phase p .writing) (Waits .Tabwlock) : ℕ) : ℤ)
      omega
    · change s.Tabrlock + 1 = 0 at hnone
      omega

theorem rd_lock (he : Excl s) (h : Awaits s) (hp : s.phase p = .out) : Awaits (s.rd_lock p) := by
  have hrd := h.want_rd
  have hwr := h.want_wr
  have hrd' := update s.phase p (.awake .Tabrlock) .Tabrlock
  have hwr' := update s.phase p (.awake .Tabrlock) .Tabwlock
  rw [hp] at hrd' hwr'
  simp at hrd' hwr'
  have hcounts : Excl ({ s with Want_rd := s.Want_rd + 1 } : Lock P) := he.counts rfl rfl rfl
  have hout : ({ s with Want_rd := s.Want_rd + 1 } : Lock P).phase p = .out := hp
  have hexcl := hcounts.go (.awake .Tabrlock) (by rw [hout]; exact ⟨nofun, nofun⟩) ⟨nofun, nofun⟩
  apply rdLoop hexcl _ (Function.update_self _ _ _)
  apply of_awake _ _ (Function.update_self p _ _)
  · change s.Want_rd + 1 = ((census (Function.update s.phase p _) (Waits .Tabrlock) : ℕ) : ℤ)
    omega
  · exact hwr.trans (congrArg _ hwr'.symm)

theorem wr_lock (he : Excl s) (h : Awaits s) (hp : s.phase p = .out) : Awaits (s.wr_lock p) := by
  have hrd := h.want_rd
  have hwr := h.want_wr
  have hrd' := update s.phase p (.awake .Tabwlock) .Tabrlock
  have hwr' := update s.phase p (.awake .Tabwlock) .Tabwlock
  rw [hp] at hrd' hwr'
  simp at hrd' hwr'
  have hcounts : Excl ({ s with Want_wr := s.Want_wr + 1 } : Lock P) := he.counts rfl rfl rfl
  have hout : ({ s with Want_wr := s.Want_wr + 1 } : Lock P).phase p = .out := hp
  have hexcl := hcounts.go (.awake .Tabwlock) (by rw [hout]; exact ⟨nofun, nofun⟩) ⟨nofun, nofun⟩
  apply wrLoop hexcl _ (Function.update_self _ _ _)
  apply of_awake _ _ (Function.update_self p _ _)
  · exact hrd.trans (congrArg _ hrd'.symm)
  · change s.Want_wr + 1 = ((census (Function.update s.phase p _) (Waits .Tabwlock) : ℕ) : ℤ)
    omega

theorem rd_unlock (h : Awaits s) (hp : s.phase p = .reading) : Awaits (s.rd_unlock p) := by
  have hr (chan : Chan) := update s.phase p .out chan
  rw [hp] at hr
  simp only [waits_reading, waits_out, if_false, Nat.add_zero] at hr
  apply unlock (c := s.Tabwlock - 1 = 0 ∧ s.Want_wr ≠ 0)
    (s := ({ s with Tabwlock := s.Tabwlock - 1 } : Lock P).go p .out)
  · exact h.want_rd.trans (congrArg _ (hr .Tabrlock).symm)
  · exact h.want_wr.trans (congrArg _ (hr .Tabwlock).symm)
  · exact fun h1 h2 => ⟨h1, h2⟩
  · exact fun h1 => h1.2

theorem wr_unlock (h : Awaits s) (hp : s.phase p = .writing) : Awaits (s.wr_unlock p) := by
  have hr (chan : Chan) := update s.phase p .out chan
  rw [hp] at hr
  simp only [waits_writing, waits_out, if_false, Nat.add_zero] at hr
  apply unlock (c := s.Want_wr ≠ 0)
    (s := ({ s with Tabrlock := s.Tabrlock - 1 } : Lock P).go p .out)
  · exact h.want_rd.trans (congrArg _ (hr .Tabrlock).symm)
  · exact h.want_wr.trans (congrArg _ (hr .Tabwlock).symm)
  · exact fun _ h2 => h2
  · exact fun h1 => h1

/-- A process that a signal takes out of its sleep is still counted. -/
theorem signal (h : Awaits s) {chan : Chan} (hp : Waits chan (s.phase p)) : ¬ Awaits (s.go p .out) := by
  intro h'
  have hcount := update s.phase p .out chan
  rw [if_pos hp, if_neg (waits_out chan)] at hcount
  have hrd := h.want_rd.symm.trans h'.want_rd
  have hwr := h.want_wr.symm.trans h'.want_wr
  cases chan with
  | Tabrlock =>
    change _ = ((census (Function.update s.phase p .out) (Waits .Tabrlock) : ℕ) : ℤ) at hrd
    omega
  | Tabwlock =>
    change _ = ((census (Function.update s.phase p .out) (Waits .Tabwlock) : ℕ) : ℤ) at hwr
    omega

/-- A turn that is no signal keeps the counts of those who wait and leaves one who runs. -/
theorem step {s' : Lock P} {a : Turn P} (he : Excl s) (h : Awaits s) (ha : ∀ p, a ≠ .signal p)
    (hs : s.next a = some s') : Awaits s' := by
  cases a with
  | rd_lock p =>
    rw [Lock.next] at hs
    split at hs
    next hp => exact Option.some.inj hs ▸ h.rd_lock he hp
    next => exact absurd hs nofun
  | rd_unlock p =>
    rw [Lock.next] at hs
    split at hs
    next hp => exact Option.some.inj hs ▸ h.rd_unlock hp
    next => exact absurd hs nofun
  | wr_lock p =>
    rw [Lock.next] at hs
    split at hs
    next hp => exact Option.some.inj hs ▸ h.wr_lock he hp
    next => exact absurd hs nofun
  | wr_unlock p =>
    rw [Lock.next] at hs
    split at hs
    next hp => exact Option.some.inj hs ▸ h.wr_unlock hp
    next => exact absurd hs nofun
  | resume p =>
    rw [Lock.next] at hs
    split at hs
    next hp => exact Option.some.inj hs ▸ h.rdLoop he hp
    next hp => exact Option.some.inj hs ▸ h.wrLoop he hp
    next => exact absurd hs nofun
  | signal p => exact absurd rfl (ha p)

theorem step_iff {s' : Lock P} {a : Turn P} (he : Excl s) (h : Awaits s) (hs : s.next a = some s') :
    Awaits s' ↔ ∀ p, a ≠ .signal p := by
  constructor
  · rintro h' p rfl
    rw [Lock.next] at hs
    split at hs
    next chan hp => exact h.signal (hp ▸ .inl rfl : Waits chan (s.phase p)) (Option.some.inj hs ▸ h')
    next chan hp => exact h.signal (hp ▸ .inr rfl : Waits chan (s.phase p)) (Option.some.inj hs ▸ h')
    next => exact absurd hs nofun
  · exact fun ha => h.step he ha hs

end Awaits

/-- A lock that nobody has -/
def unlocked (P : Type*) : Lock P := ⟨0, 0, 0, 0, fun _ => .out⟩

omit [DecidableEq P] in
theorem excl_unlocked : Excl (unlocked P) := by
  have hzero (q : Phase → Prop) [DecidablePred q] (hq : ¬ q .out) : census (unlocked P).phase q = 0 :=
    census_eq_zero.mpr fun _ => hq
  have hr := hzero (· = .reading) nofun
  have hw := hzero (· = .writing) nofun
  exact ⟨by rw [hr]; rfl, by rw [hw]; rfl, by rw [hw]; exact Nat.zero_le 1, fun _ => hr⟩

omit [DecidableEq P] in
theorem awaits_unlocked : Awaits (unlocked P) := by
  have hzero (chan : Chan) : census (unlocked P).phase (Waits chan) = 0 :=
    census_eq_zero.mpr fun _ => waits_out chan
  refine ⟨by rw [hzero]; rfl, by rw [hzero]; rfl, ?_⟩
  rintro - - ⟨p, chan, hp⟩
  exact absurd hp nofun

/-- At most one process writes, and none reads beside it; `Want_rd` and `Want_wr` count those who wait, and
while the lock is free and some sleep on it, one of those who wait runs. -/
structure LockLaw (s : Lock P) : Prop where
  one : ∀ p q, s.phase p = .writing → s.phase q = .writing → p = q
  alone : ∀ p q, s.phase p = .writing → s.phase q ≠ .reading
  awaits : Awaits s

omit [DecidableEq P] in
theorem lockLaw_iff {s : Lock P} (h : Excl s) : LockLaw s ↔ Awaits s := by
  constructor
  · exact fun hlaw => hlaw.awaits
  · intro ha
    refine ⟨census_le_one.mp h.one, fun p q hp hq => ?_, ha⟩
    have hnone := h.alone (census_pos.mpr ⟨p, hp⟩)
    exact census_eq_zero.mp hnone q hq

/-- All states of a run are as they should be just if no signal takes a process out of its sleep. -/
theorem lock_safe {as : List (Turn P)} {t : Lock P}
    (hrun : Run (fun s a s' => s.next a = some s') (unlocked P) as t) :
    (∀ b s, b <+: as → Run (fun s a s' => s.next a = some s') (unlocked P) b s → LockLaw s) ↔
      ∀ p, .signal p ∉ as := by
  have hexcl {b : List (Turn P)} {s : Lock P}
      (hb : Run (fun s a s' => s.next a = some s') (unlocked P) b s) : Excl s :=
    hb.invariant (fun _ _ _ h hs => h.step hs) excl_unlocked
  have hall := Run.prefix_iff (C := fun _ a => ∀ p : P, a ≠ Turn.signal p) excl_unlocked awaits_unlocked
    (fun s a t he hs => ⟨he.step hs, fun h => h.step_iff he hs⟩) as
  constructor
  · intro h p hin
    obtain ⟨b, c, rfl⟩ := List.append_of_mem hin
    obtain ⟨s, hb, hc⟩ := hrun.split
    cases hc with
    | cons hs _ =>
      have hpre : b ++ [.signal p] <+: b ++ .signal p :: c := ⟨c, List.append_assoc b [.signal p] c⟩
      have hgood := hall.mp (fun b s hbs hb => (h b s hbs hb).awaits)
      exact hgood b _ s _ hpre hb hs p rfl
  · intro h b s hpre hb
    have hgood := hall.mpr fun b a s u hpre _ _ p heq =>
      h p (hpre.subset (List.mem_append_right b (heq ▸ List.mem_singleton.mpr rfl)))
    exact (lockLaw_iff (hexcl hb)).mpr (hgood b s hpre hb)

/-- Two readers and a writer, who waits for both -/
def shared : List (Turn (Fin 3)) :=
  [.rd_lock 0, .wr_lock 1, .rd_lock 2, .rd_unlock 0, .rd_unlock 2, .resume 1]

theorem lock_safe_shared : ∃ t : Lock (Fin 3), t.phase 1 = .writing ∧ LockLaw t := by
  have hrun : ((shared.foldlM Lock.next (unlocked (Fin 3))).any fun t => t.phase 1 = .writing) = true := by
    decide
  obtain ⟨t, ht, hend⟩ := Run.of_foldlM hrun
  have hsig : ∀ p, .signal p ∉ shared := by decide
  exact ⟨t, of_decide_eq_true hend, (lock_safe ht).mpr hsig shared t (List.prefix_refl _) ht⟩

/-- A writer who waits for a reader takes a signal; a reader then sleeps for good, with the lock free. -/
theorem signal_loses_wakeup : ¬ ∀ (as : List (Turn (Fin 3))) (t : Lock (Fin 3)),
    Run (fun s a s' => s.next a = some s') (unlocked (Fin 3)) as t → LockLaw t := by
  intro hall
  have hrun : (([.rd_lock 0, .wr_lock 1, .signal 1, .rd_unlock 0, .wr_lock 0, .rd_lock 2, .wr_unlock 0] :
      List (Turn (Fin 3))).foldlM Lock.next (unlocked (Fin 3))).any (fun t =>
        t.Tabrlock = 0 ∧ t.Tabwlock = 0 ∧ t.phase 2 = .asleep .Tabrlock ∧
          ∀ q, t.phase q ≠ .awake .Tabrlock ∧ t.phase q ≠ .awake .Tabwlock) = true := by
    decide
  obtain ⟨t, ht, hend⟩ := Run.of_foldlM hrun
  obtain ⟨hr, hw, hp, hnone⟩ := of_decide_eq_true hend
  obtain ⟨q, chan, hq⟩ := (hall _ t ht).awaits.free hr hw ⟨2, _, hp⟩
  cases chan with
  | Tabrlock => exact (hnone q).1 hq
  | Tabwlock => exact (hnone q).2 hq

end Svr3.Auth
