import Svr3.Lib.Run
import Svr3.Os.Callout

/-!
# The callout table simulates absolute deadlines

The specification is a list of pending calls with absolute deadlines. The table of `clock.c`
simulates it under every order of `timeout`, `untimeout`, ticks and turns of the loop of `timein`;
what a called function does is a stretch of the same actions.
-/

namespace Svr3.Callout

open List

inductive Act
  /-- `timeout(fun, arg, tim)` returned `id`. -/
  | timeout (f : ℕ) (arg tim id : ℤ)
  | untimeout (id : ℤ)
  /-- One interrupt of the clock. -/
  | tick
  /-- A turn of the loop of `timein`, which calls `f` with `arg`. -/
  | call (f : ℕ) (arg id : ℤ)
  /-- The loop of `timein` ends. -/
  | done

/-- One action on the table; a call of `timeout` that overflows the table is none. -/
inductive Step : Clk → Act → Clk → Prop
  | timeout {s t : Clk} {f : ℕ} {arg tim id : ℤ} : 0 ≤ tim →
      Callout.timeout s f arg tim = .ok (id, t) → Step s (.timeout f arg tim id) t
  | untimeout {s t : Clk} {id : ℤ} : Callout.untimeout s id = .ok t → Step s (.untimeout id) t
  | tick {s t : Clk} : clock s = .ok t → Step s .tick t
  | call {s t : Clk} {c : Callo} {f : ℕ} : due s = true → timeinBody s = .ok (c, t) →
      c.c_func = some f → Step s (.call f c.c_arg c.c_id) t
  | done {s : Clk} : due s = false → Step s .done s

/-- The specification: the calls to be made in order, and the history: all calls that were
arranged, those that were made with the tick they were made at, and those that were removed. -/
structure Sched where
  now : ℤ
  pend : List Pending
  issued : List Pending
  called : List (Pending × ℤ)
  removed : List Pending

def Sched.init : Sched := ⟨0, [], [], [], []⟩

/-- The call that `timeout` arranges. -/
def Sched.new (a : Sched) (f : ℕ) (arg tim id : ℤ) : Pending :=
  ⟨a.issued.length, a.now + tim, id, arg, f⟩

/-- One action of the specification. A deadline never changes: a call is put in its place, or
taken out. -/
inductive Spec : Sched → Act → Sched → Prop
  | timeout {a : Sched} {f : ℕ} {arg tim id : ℤ} : 0 ≤ tim →
      Spec a (.timeout f arg tim id)
        { a with pend := place (a.new f arg tim id) a.pend,
                 issued := a.new f arg tim id :: a.issued }
  | untimeout {a : Sched} {id : ℤ} :
      Spec a (.untimeout id)
        { a with pend := a.pend.eraseP fun p => p.id = id,
                 removed := (a.pend.find? fun p => p.id = id).toList ++ a.removed }
  | tick {a : Sched} : Spec a .tick { a with now := a.now + 1 }
  | call {a : Sched} {p : Pending} {ps : List Pending} : a.pend = p :: ps → p.deadline ≤ a.now →
      Spec a (.call p.func p.arg p.id)
        { a with pend := ps, called := (p, a.now) :: a.called }
  | done {a : Sched} : (∀ p ∈ a.pend, a.now < p.deadline) → Spec a .done a

/-! ## The specification keeps the deadlines in order and loses no call -/

/-- The order of the calls: by deadline, ties in the order of the calls of `timeout`. -/
def Before (p q : Pending) : Prop :=
  p.deadline < q.deadline ∨ p.deadline = q.deadline ∧ p.seq < q.seq

/-- The invariant of the specification. -/
structure Sched.Inv (a : Sched) : Prop where
  /-- The pending calls are in order. -/
  order : a.pend.Pairwise Before
  /-- Every call that was arranged is pending, was made, or was removed: exactly one of these. -/
  conserved : (a.pend ++ a.called.map Prod.fst ++ a.removed).Perm a.issued
  /-- The calls of `timeout` are numbered, so no call occurs twice. -/
  numbered : a.issued.map Pending.seq = (List.range a.issued.length).reverse
  /-- No call is made before its deadline. -/
  notEarly : ∀ c ∈ a.called, c.1.deadline ≤ c.2

theorem Sched.init_inv : Sched.init.Inv :=
  ⟨List.Pairwise.nil, by simp [init], rfl, by simp [init]⟩

theorem place_order {p : Pending} {ps : List Pending} (h : ps.Pairwise Before)
    (hseq : ∀ q ∈ ps, q.seq < p.seq) : (place p ps).Pairwise Before := by
  induction ps with
  | nil => simp [place]
  | cons q ps ih =>
    obtain ⟨hq, hps⟩ := pairwise_cons.mp h
    by_cases hle : q.deadline ≤ p.deadline
    · have hplace : place p (q :: ps) = q :: place p ps := by simp [place, hle]
      rw [hplace, pairwise_cons]
      refine ⟨?_, ih hps fun r hr => hseq r (by simp [hr])⟩
      intro r hr
      rcases mem_cons.mp ((place_perm p ps).subset hr) with rfl | hr
      · exact hle.lt_or_eq.imp id fun he => ⟨he, hseq q (by simp)⟩
      · exact hq r hr
    · have hplace : place p (q :: ps) = p :: q :: ps := by simp [place, hle]
      rw [hplace, pairwise_cons]
      refine ⟨?_, h⟩
      intro r hr
      left
      rcases mem_cons.mp hr with rfl | hr
      · omega
      · rcases hq r hr with hlt | ⟨heq, -⟩ <;> omega

theorem eraseP_find?_perm {α : Type*} (f : α → Bool) (l : List α) :
    (l.eraseP f ++ (l.find? f).toList).Perm l := by
  induction l with
  | nil => simp
  | cons a l ih =>
    cases hf : f a with
    | true => simp [hf]
    | false => simpa [hf] using ih.cons a

theorem Sched.Inv.seq_lt {a : Sched} (h : a.Inv) : ∀ p ∈ a.issued, p.seq < a.issued.length := by
  intro p hp
  have hmem : p.seq ∈ a.issued.map Pending.seq := mem_map_of_mem hp
  rw [h.numbered] at hmem
  simpa using hmem

theorem Sched.Inv.pend_issued {a : Sched} (h : a.Inv) : ∀ p ∈ a.pend, p ∈ a.issued :=
  fun p hp => h.conserved.subset (by simp [hp])

theorem spec_inv {a b : Sched} {c : Act} (ha : a.Inv) (h : Spec a c b) : b.Inv := by
  cases h with
  | @timeout f arg tim id ht =>
    refine ⟨place_order ha.order fun q hq => ha.seq_lt q (ha.pend_issued q hq), ?_, ?_,
      ha.notEarly⟩
    · simp only [append_assoc]
      refine ((place_perm _ _).append_right _).trans ?_
      simpa using ha.conserved
    · simp only [map_cons, ha.numbered, length_cons, range_succ,
        reverse_append, reverse_singleton, singleton_append]
      rfl
  | @untimeout id =>
    refine ⟨ha.order.sublist eraseP_sublist, ?_, ha.numbered, ha.notEarly⟩
    have herase := eraseP_find?_perm (fun p : Pending => decide (p.id = id)) a.pend
    refine List.Perm.trans ?_ ha.conserved
    simp only [append_assoc]
    rw [← append_assoc, ← append_assoc, ← append_assoc]
    refine List.Perm.append_right _ ?_
    rw [append_assoc]
    refine (List.Perm.append_left _ perm_append_comm).trans ?_
    rw [← append_assoc]
    exact herase.append_right _
  | tick => exact ⟨ha.order, ha.conserved, ha.numbered, ha.notEarly⟩
  | @call p ps hp hdue =>
    refine ⟨?_, ?_, ha.numbered, ?_⟩
    · have := ha.order
      rw [hp] at this
      exact (pairwise_cons.mp this).2
    · have := ha.conserved
      rw [hp] at this
      refine List.Perm.trans ?_ this
      simp only [map_cons, cons_append]
      exact perm_middle.append_right _
    · exact forall_mem_cons.mpr ⟨hdue, ha.notEarly⟩
  | done => exact ha

/-- Some call is due exactly when the first entry of the table is. -/
theorem Sched.Inv.due_iff {a : Sched} (ha : a.Inv) {s : Clk} (h : Holds s a.pend) :
    due s = true ↔ ∃ p ∈ a.pend, p.deadline ≤ s.lbolt := by
  rw [Callout.due_iff h]
  constructor
  · rintro ⟨p, hp, hle⟩
    exact ⟨p, mem_of_mem_head? hp, hle⟩
  · rintro ⟨p, hp, hle⟩
    have horder := ha.order
    cases hq : a.pend with
    | nil => simp [hq] at hp
    | cons q qs =>
      refine ⟨q, rfl, ?_⟩
      rw [hq] at horder hp
      rcases mem_cons.mp hp with rfl | hp
      · exact hle
      · rcases (pairwise_cons.mp horder).1 p hp with h | h <;> omega

/-! ## The simulation -/

/-- The table holds the pending calls of the specification, at the same time. -/
def Sim (n : ℕ) (s : Clk) (a : Sched) : Prop :=
  Holds s a.pend ∧ s.lbolt = a.now ∧ s.callout.length = n + 2 ∧ a.Inv

theorem step_simulates {n : ℕ} {s t : Clk} {a : Sched} {c : Act} (hs : Sim n s a)
    (h : Step s c t) : ∃ b, Spec a c b ∧ Sim n t b := by
  obtain ⟨hh, hnow, hlen, hinv⟩ := hs
  suffices hgoal : ∃ b, Spec a c b ∧ Holds t b.pend ∧ t.lbolt = b.now ∧
      t.callout.length = n + 2 by
    obtain ⟨b, hb, h1, h2, h3⟩ := hgoal
    exact ⟨b, hb, h1, h2, h3, spec_inv hinv hb⟩
  cases h with
  | @timeout _ f arg tim id ht hm =>
    rcases timeout_spec hh f arg ht (by omega) a.issued.length with
      ⟨hp, -⟩ | ⟨s', h1, h2, h3, h4⟩
    · exact absurd (hm.symm.trans hp) (by simp)
    · obtain ⟨rfl, rfl⟩ : id = s'.timeid ∧ t = s' := by
        simpa using hm.symm.trans h1
      exact ⟨_, .timeout ht, by simpa [Sched.new, hnow] using h4, by simpa [h2] using hnow,
        by omega⟩
  | @untimeout _ id hm =>
    obtain ⟨s', h1, h2, h3, h4⟩ := untimeout_spec hh id
    obtain rfl : t = s' := by simpa using hm.symm.trans h1
    exact ⟨_, .untimeout, h4, by simpa [h2] using hnow, by omega⟩
  | tick hm =>
    obtain ⟨s', h1, h2, h3, h4⟩ := clock_spec hh
    obtain rfl : t = s' := by simpa using hm.symm.trans h1
    exact ⟨_, .tick, h4, by simp [h2, hnow], by omega⟩
  | @call _ c f hdue hm hf =>
    obtain ⟨p, hp, hpd⟩ := (due_iff hh).mp hdue
    obtain ⟨ps, hps⟩ := List.head?_eq_some_iff.mp hp
    obtain ⟨c', s', h1, ⟨h2, h3, h4⟩, h5, h6, h7⟩ := timeinBody_spec (hps ▸ hh) hpd
    obtain ⟨rfl, rfl⟩ : c = c' ∧ t = s' := by simpa using hm.symm.trans h1
    obtain rfl : f = p.func := by simpa using hf.symm.trans h2
    rw [h3, h4]
    exact ⟨_, .call hps (hnow ▸ hpd), h7, by simpa [h5] using hnow, by omega⟩
  | done hdue =>
    refine ⟨a, .done ?_, hh, hnow, hlen⟩
    intro p hp
    by_contra! hle
    have htrue := (hinv.due_iff hh).mpr ⟨p, hp, by omega⟩
    simp [htrue] at hdue

/-- What the table guarantees when the specification is in state `a`. -/
structure Faithful (s : Clk) (a : Sched) : Prop where
  /-- Up to and including the entry of a pending call, the times add up to the ticks until its
  deadline when that lies in the future, and to at most 0 otherwise. -/
  sums : ∃ cs stop junk, s.callout = cs ++ stop :: junk ∧ stop.c_func = none ∧
    cs.length = a.pend.length ∧ ∀ i c p, cs[i]? = some c → a.pend[i]? = some p →
      (c.c_func = some p.func ∧ c.c_id = p.id ∧ c.c_arg = p.arg) ∧
      (s.lbolt < p.deadline →
        ((cs.take (i + 1)).map Callo.c_time).sum = p.deadline - s.lbolt) ∧
      (p.deadline ≤ s.lbolt → ((cs.take (i + 1)).map Callo.c_time).sum ≤ 0)
  /-- The loop of `timein` goes on exactly while the deadline of some call has passed. -/
  due : Callout.due s = true ↔ ∃ p ∈ a.pend, p.deadline ≤ s.lbolt
  /-- No routine runs past the end of the table. -/
  inside : (∀ f arg tim, 0 ≤ tim → timeout s f arg tim ≠ .error .outside) ∧
    (∀ id, ∃ t, untimeout s id = .ok t) ∧ (∃ t, clock s = .ok t) ∧
    (Callout.due s = true → ∃ c t, timeinBody s = .ok (c, t))

theorem Encodes.entry {now base : ℤ} {cs : List Callo} {ps : List Pending}
    (h : Encodes now base cs ps) {i : ℕ} {c : Callo} {p : Pending} (hc : cs[i]? = some c)
    (hp : ps[i]? = some p) : c.c_func = some p.func ∧ c.c_id = p.id ∧ c.c_arg = p.arg := by
  induction cs generalizing base ps i with
  | nil => simp at hc
  | cons d cs ih =>
    cases ps with
    | nil => simp at hp
    | cons q ps =>
      cases i with
      | zero =>
        obtain rfl : d = c := by simpa using hc
        obtain rfl : q = p := by simpa using hp
        exact h.1
      | succ i => exact ih h.2.2.2 (by simpa using hc) (by simpa using hp)

theorem Sim.faithful {n : ℕ} {s : Clk} {a : Sched} (h : Sim n s a) : Faithful s a := by
  obtain ⟨hh, hnow, hlen, hinv⟩ := h
  refine ⟨?_, hinv.due_iff hh, ?_, ?_, ?_, ?_⟩
  · obtain ⟨cs, stop, junk, heq, hnone, henc⟩ := hh
    refine ⟨cs, stop, junk, heq, hnone stop (by simp), henc.length, ?_⟩
    intro i c p hc hp
    have hsum := henc.sum_take hp
    simp only [Pending.remaining] at hsum
    exact ⟨henc.entry hc hp, fun h1 => by omega, fun h1 => by omega⟩
  · intro f arg tim ht
    rcases timeout_spec hh f arg ht (by omega) 0 with ⟨hp, -⟩ | ⟨s', h1, -⟩
    · simp [hp]
    · simp [h1]
  · intro id
    obtain ⟨t, ht, -⟩ := untimeout_spec hh id
    exact ⟨t, ht⟩
  · obtain ⟨t, ht, -⟩ := clock_spec hh
    exact ⟨t, ht⟩
  · intro hd
    obtain ⟨p, hp, hle⟩ := (due_iff hh).mp hd
    obtain ⟨ps, hps⟩ := List.head?_eq_some_iff.mp hp
    obtain ⟨c, t, h1, -⟩ := timeinBody_spec (hps ▸ hh) hle
    exact ⟨c, t, h1⟩

/-- Under every order of actions the table simulates a list of absolute deadlines: kept in
order, each call made once, not before its deadline, and none that was removed. -/
theorem callout_simulates (n : ℕ) {acts : List Act} {s : Clk} (h : Run Step (boot n) acts s) :
    ∃ a, Run Spec Sched.init acts a ∧ a.Inv ∧ s.lbolt = a.now ∧ Faithful s a := by
  have hstart : Sim n (boot n) Sched.init :=
    ⟨boot_holds n, rfl, by simp [boot], Sched.init_inv⟩
  obtain ⟨a, hrun, hsim⟩ := h.simulates (fun _ _ _ _ hs hc => step_simulates hs hc) hstart
  exact ⟨a, hrun, hsim.2.2.2, hsim.2.1, hsim.faithful⟩

/-- A call due after one tick, served after two. -/
theorem callout_simulates_small :
    ∃ s a, Run Spec Sched.init [.timeout 7 0 1 1, .tick, .tick, .call 7 0 1, .done] a ∧ a.Inv ∧
      s.lbolt = a.now ∧ Faithful s a := by
  let s1 : Clk := ⟨[⟨1, 1, 0, some 7⟩, ⟨-1, 0, 0, none⟩], 1, 0⟩
  let s2 : Clk := ⟨[⟨0, 1, 0, some 7⟩, ⟨-1, 0, 0, none⟩], 1, 1⟩
  let s3 : Clk := ⟨[⟨0, 1, 0, some 7⟩, ⟨-2, 0, 0, none⟩], 1, 2⟩
  let s4 : Clk := ⟨[⟨-2, 0, 0, none⟩, ⟨-2, 0, 0, none⟩], 1, 2⟩
  have h1 : Step (boot 0) (.timeout 7 0 1 1) s1 := .timeout (by decide) rfl
  have h2 : Step s1 .tick s2 := .tick rfl
  have h3 : Step s2 .tick s3 := .tick rfl
  have h4 : Step s3 (.call 7 0 1) s4 :=
    Step.call (c := ⟨0, 1, 0, some 7⟩) rfl rfl rfl
  have h5 : Step s4 .done s4 := .done rfl
  exact ⟨s4, callout_simulates 0 (.cons h1 (.cons h2 (.cons h3 (.cons h4 (.single h5)))))⟩

end Svr3.Callout
