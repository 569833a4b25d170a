import Svr3.Os.Malloc

/-!
# Histories of a resource map

The calls on one map from `mapinit` on, with the units that were donated to it and the units that
are handed out. Every reachable map is an exact first-fit allocator of the donated units.
-/

namespace Svr3.Malloc

open Set Extent

/-- A map with its history: the units donated so far and those handed out. -/
structure Hist where
  map : RMap
  donated : Set ℕ
  out : Set ℕ

inductive Call
  /-- `malloc(mp, size)` returned `a`. -/
  | malloc (size a : ℕ)
  /-- `mfree(mp, size, a)` of units handed out earlier. -/
  | mfree (size a : ℕ)
  /-- `mfree(mp, size, a)` of units the map never had. -/
  | donate (size a : ℕ)

/-- One call. Nothing is donated at unit 0, the answer of a `malloc` that fails, and no call of
`mfree` overflows the map. -/
inductive Step : Hist → Call → Hist → Prop
  | malloc {s : Hist} {n a : ℕ} {mp : RMap} : 0 < n → malloc s.map n = some (a, mp) →
      Step s (.malloc n a) ⟨mp, s.donated, if a = 0 then s.out else s.out ∪ Ico a (a + n)⟩
  | mfree {s : Hist} {n a : ℕ} {mp : RMap} : 0 < n → Ico a (a + n) ⊆ s.out →
      mfree s.map n a = some mp → mp.lost = s.map.lost →
      Step s (.mfree n a) ⟨mp, s.donated, s.out \ Ico a (a + n)⟩
  | donate {s : Hist} {n a : ℕ} {mp : RMap} : 0 < n → 1 ≤ a → a + n ≤ 2 ^ 32 →
      Disjoint (Ico a (a + n)) s.donated → mfree s.map n a = some mp → mp.lost = s.map.lost →
      Step s (.donate n a) ⟨mp, s.donated ∪ Ico a (a + n), s.out⟩

/-- The map just after `mapinit` on an array of `k + 2` slots. -/
def start (k : ℕ) : Hist := ⟨mapinit k, ∅, ∅⟩

/-- The invariant: the map describes the donated units that are not handed out. -/
def Inv (k : ℕ) (s : Hist) : Prop :=
  s.out ⊆ s.donated ∧ s.donated ⊆ Ico 1 (2 ^ 32) ∧
    ∃ es, Describes s.map k es ∧ units es = s.donated \ s.out

theorem start_inv (k : ℕ) : Inv k (start k) :=
  ⟨subset_rfl, empty_subset _, [], mapinit_describes k, by simp [start]⟩

/-- Units that are handed out lie in the words from 1 on. -/
theorem Inv.bounds {k : ℕ} {s : Hist} (h : Inv k s) {n a : ℕ} (hn : 0 < n)
    (hsub : Ico a (a + n) ⊆ s.out) : 1 ≤ a ∧ a + n ≤ 2 ^ 32 := by
  have hrun : Ico a (a + n) ⊆ Ico 1 (2 ^ 32) := hsub.trans (h.1.trans h.2.1)
  have hlo := (hrun ⟨le_refl a, by omega⟩).1
  have hhi := (hrun (show a + n - 1 ∈ Ico a (a + n) from ⟨by omega, by omega⟩)).2
  omega

theorem step_inv {k : ℕ} {s t : Hist} {c : Call} (hs : Inv k s) (h : Step s c t) : Inv k t := by
  obtain ⟨hout, hdon, es, hdesc, hunits⟩ := id hs
  cases h with
  | malloc hn hm =>
    obtain ⟨b, mp', hb, -, hcase⟩ := malloc_spec hdesc hn
    obtain ⟨rfl, rfl⟩ : _ = b ∧ _ = mp' := by
      simpa using hm.symm.trans hb
    rcases hcase with ⟨rfl, rfl, -⟩ | ⟨hb0, hleast, es', hdesc', hunits'⟩
    · exact ⟨by simpa using hout, hdon, es, hdesc, by simpa using hunits⟩
    · have hsub := hleast.1
      rw [hunits] at hsub
      simp only [hb0, if_false]
      refine ⟨union_subset hout (hsub.trans sdiff_subset), hdon, es', hdesc', ?_⟩
      rw [hunits', hunits, sdiff_sdiff]
  | @mfree n a mp hn hsub hm hlost =>
    obtain ⟨ha, hstop⟩ := hs.bounds hn hsub
    obtain ⟨mp', hm', hfreed⟩ := mfree_spec hdesc hn ha hstop
      (hunits ▸ disjoint_sdiff_right.mono_left hsub)
    obtain rfl : mp = mp' := by simpa using hm.symm.trans hm'
    rcases hfreed with hc | ⟨-, es', hdesc', hunits'⟩
    · exact absurd (hc.symm.trans hlost) (by simp)
    · refine ⟨sdiff_subset.trans hout, hdon, es', hdesc', ?_⟩
      rw [hunits', hunits]
      ext u
      have h1 := @hsub u
      have h2 := @hout u
      simp only [mem_union, mem_sdiff]
      tauto
  | @donate n a mp hn ha hstop hdis hm hlost =>
    obtain ⟨mp', hm', hfreed⟩ := mfree_spec hdesc hn ha hstop
      (hunits ▸ hdis.mono_right sdiff_subset)
    obtain rfl : mp = mp' := by simpa using hm.symm.trans hm'
    rcases hfreed with hc | ⟨-, es', hdesc', hunits'⟩
    · exact absurd (hc.symm.trans hlost) (by simp)
    · refine ⟨hout.trans subset_union_left, union_subset hdon ?_, es', hdesc', ?_⟩
      · exact fun u hu => ⟨ha.trans hu.1, hu.2.trans_le hstop⟩
      · rw [hunits', hunits]
        ext u
        have h1 := @hout u
        have h2 := @Set.disjoint_left.mp hdis u
        simp only [mem_union, mem_sdiff]
        tauto

/-- What the map guarantees after a history. -/
structure Exact (k : ℕ) (s : Hist) : Prop where
  /-- The entries `es` are increasing, non-empty, disjoint and coalesced, only slots of size 0
  follow them, their number and `mapsize` add up to `k`, and they describe exactly the donated
  units that are not handed out. -/
  entries : ∃ es, s.map.slot = slots es (s.map.mapsize + 1) ∧ Separated es ∧
    s.map.mapsize + es.length = k ∧ units es = s.donated \ s.out
  /-- `malloc` returns the least base of a free run of `n` units, none of which is handed out,
  and 0 only when there is no such run. -/
  firstFit : ∀ n, 0 < n → ∃ a mp, malloc s.map n = some (a, mp) ∧
    ((a = 0 ∧ ∀ b, ¬ Ico b (b + n) ⊆ s.donated \ s.out) ∨
      (a ≠ 0 ∧ IsLeast {b | Ico b (b + n) ⊆ s.donated \ s.out} a ∧
        Disjoint (Ico a (a + n)) s.out))
  /-- `mfree` of units that are handed out never runs past the array. -/
  frees : ∀ n a, 0 < n → Ico a (a + n) ⊆ s.out → ∃ mp, mfree s.map n a = some mp

theorem Inv.exact {k : ℕ} {s : Hist} (h : Inv k s) : Exact k s := by
  obtain ⟨-, -, es, hdesc, hunits⟩ := id h
  refine ⟨⟨es, hdesc.slot, hdesc.sep, hdesc.count, hunits⟩, ?_, ?_⟩
  · intro n hn
    obtain ⟨a, mp, hm, -, hcase⟩ := malloc_spec hdesc hn
    rw [hunits] at hcase
    refine ⟨a, mp, hm, ?_⟩
    rcases hcase with ⟨ha, -, hno⟩ | ⟨ha, hleast, -⟩
    · exact Or.inl ⟨ha, hno⟩
    · exact Or.inr ⟨ha, hleast, disjoint_sdiff_left.mono_left hleast.1⟩
  · intro n a hn hsub
    obtain ⟨ha, hstop⟩ := h.bounds hn hsub
    obtain ⟨mp, hm, -⟩ := mfree_spec hdesc hn ha hstop
      (hunits ▸ disjoint_sdiff_right.mono_left hsub)
    exact ⟨mp, hm⟩

/-- The resource map is an exact first-fit allocator after every history. -/
theorem map_exact (k : ℕ) {calls : List Call} {s : Hist} (h : Run Step (start k) calls s) :
    Exact k s :=
  (h.invariant (fun _ _ _ hs hc => step_inv hs hc) (start_inv k)).exact

/-- A donation of ten units from 1 on, an allocation, and the return of its middle. -/
theorem map_exact_small :
    ∃ s, Run Step (start 3) [.donate 10 1, .malloc 4 1, .mfree 2 2] s ∧ Exact 3 s := by
  let m1 : RMap := ⟨2, 0, [⟨10, 1⟩, ⟨0, 0⟩, ⟨0, 0⟩, ⟨0, 0⟩], []⟩
  let m2 : RMap := ⟨2, 0, [⟨6, 5⟩, ⟨0, 0⟩, ⟨0, 0⟩, ⟨0, 0⟩], []⟩
  let m3 : RMap := ⟨1, 0, [⟨2, 2⟩, ⟨6, 5⟩, ⟨0, 0⟩, ⟨0, 0⟩], []⟩
  have h1 : Step (start 3) (.donate 10 1) ⟨m1, ∅ ∪ Ico 1 11, ∅⟩ :=
    .donate (by decide) (by decide) (by decide) (by simp [start]) (by decide) rfl
  have h2 : Step ⟨m1, ∅ ∪ Ico 1 11, ∅⟩ (.malloc 4 1) ⟨m2, ∅ ∪ Ico 1 11, ∅ ∪ Ico 1 5⟩ :=
    .malloc (by decide) (by decide)
  have h3 : Step ⟨m2, ∅ ∪ Ico 1 11, ∅ ∪ Ico 1 5⟩ (.mfree 2 2)
      ⟨m3, ∅ ∪ Ico 1 11, (∅ ∪ Ico 1 5) \ Ico 2 4⟩ :=
    .mfree (by decide) (fun u hu => Or.inr ⟨by have := hu.1; omega, by have := hu.2; omega⟩)
      (by decide) rfl
  have hrun := Run.cons h1 (Run.cons h2 (Run.single h3))
  exact ⟨_, hrun, map_exact 3 hrun⟩

end Svr3.Malloc
