import Svr3.Cmd.Fgrep

/-!
# The table of words is a forest

Every pointer that `cgotofn` sets leads to a node that is new then. So a pointer leads to a later node, and no two lead
to the same one.
-/

namespace Svr3.Fgrep

open Function List

section pointers

variable {link nst : ℕ → ℕ} {top s : ℕ}

/-- Pointers lead to later nodes up to `top`, and no two to the same one. -/
structure Pointers (link nst : ℕ → ℕ) (top : ℕ) : Prop where
  link_up : ∀ i, link i ≠ 0 → i < link i ∧ link i ≤ top
  nst_up : ∀ i, nst i ≠ 0 → i < nst i ∧ nst i ≤ top
  link_inj : ∀ i j, link i = link j → link i ≠ 0 → i = j
  nst_inj : ∀ i j, nst i = nst j → nst i ≠ 0 → i = j
  apart : ∀ i j, link i = nst j → link i = 0

theorem Pointers.start : Pointers (fun _ => 0) (fun _ => 0) 0 :=
  ⟨fun _ h => absurd rfl h, fun _ h => absurd rfl h, fun _ _ _ h => absurd rfl h, fun _ _ _ h => absurd rfl h,
    fun _ _ _ => rfl⟩

theorem Pointers.swap (h : Pointers link nst top) : Pointers nst link top where
  link_up := h.nst_up
  nst_up := h.link_up
  link_inj := h.nst_inj
  nst_inj := h.link_inj
  apart i j hij := by
    have hzero := h.apart j i hij.symm
    rwa [← hij] at hzero

theorem Pointers.link_le (h : Pointers link nst top) (i : ℕ) : link i ≤ top := by
  by_cases hi : link i = 0
  · omega
  · exact (h.link_up i hi).2

theorem Pointers.nst_le (h : Pointers link nst top) (i : ℕ) : nst i ≤ top := h.swap.link_le i

/-- A pointer to a new node -/
theorem Pointers.newLink (h : Pointers link nst top) (hs : s ≤ top) :
    Pointers (update link s (top + 1)) nst (top + 1) where
  link_up i hi := by
    by_cases his : i = s
    · subst his
      rw [update_self]
      omega
    · rw [update_of_ne his] at hi ⊢
      have := h.link_up i hi
      omega
  nst_up i hi := by
    have := h.nst_up i hi
    omega
  link_inj i j hij hi := by
    have hle := h.link_le
    by_cases his : i = s <;> by_cases hjs : j = s
    · rw [his, hjs]
    · rw [his, update_self, update_of_ne hjs] at hij
      have := hle j
      omega
    · rw [hjs, update_self, update_of_ne his] at hij
      have := hle i
      omega
    · rw [update_of_ne his, update_of_ne hjs] at hij
      rw [update_of_ne his] at hi
      exact h.link_inj i j hij hi
  nst_inj := h.nst_inj
  apart i j hij := by
    by_cases his : i = s
    · rw [his, update_self] at hij
      have := h.nst_le j
      omega
    · rw [update_of_ne his] at hij ⊢
      exact h.apart i j hij

theorem Pointers.newNst (h : Pointers link nst top) (hs : s ≤ top) :
    Pointers link (update nst s (top + 1)) (top + 1) :=
  (h.swap.newLink hs).swap

end pointers

section table

variable {w : Nodes} {t t' : Table} {s k : ℕ} {c : ℤ} {xflag : Bool}

structure Sound (t : Table) : Prop where
  size : t.smax < MAXSIZ
  fresh : ∀ i, t.smax < i → t.w i = blank
  pointers : Pointers (fun i => (t.w i).link) (fun i => (t.w i).nst) t.smax
  leads : ∀ i, (t.w i).inp ≠ 0 → (t.w i).nst ≠ 0

theorem Sound.start : Sound ⟨fun _ => blank, 0⟩ :=
  ⟨by decide, fun _ _ => rfl, .start, fun _ h => absurd rfl h⟩

theorem update_field {β : Type*} (f : Words → β) (x : Words) :
    (fun i => f (update w s x i)) = update (fun i => f (w i)) s (f x) := by
  funext i
  by_cases hi : i = s
  · subst hi
    rw [update_self, update_self]
  · rw [update_of_ne hi, update_of_ne hi]

theorem fresh_update (h : ∀ i, k < i → w i = blank) (hs : s ≤ k) (x : Words) :
    ∀ i, k < i → update w s x i = blank := fun i hi =>
  (update_of_ne (Nat.ne_of_gt (Nat.lt_of_le_of_lt hs hi)) x w).trans (h i hi)

theorem Sound.setOut (h : Sound t) (hs : s ≤ t.smax) : Sound (setOut t s) where
  size := h.size
  fresh := fresh_update h.fresh hs _
  pointers := by
    have hp := h.pointers
    unfold Fgrep.setOut
    rw [update_field, update_field, update_eq_self, update_eq_self]
    exact hp
  leads i hi := by
    unfold Fgrep.setOut at hi ⊢
    dsimp only at hi ⊢
    by_cases his : i = s
    · subst his
      rw [update_self] at hi ⊢
      exact h.leads i hi
    · rw [update_of_ne his] at hi ⊢
      exact h.leads i hi

theorem Sound.newLink (h : Sound t) (hs : s ≤ t.smax) (ht : newLink t s = .ok t') :
    Sound t' ∧ t'.smax = t.smax + 1 := by
  unfold Fgrep.newLink at ht
  split at ht
  · exact absurd ht nofun
  next hroom =>
    obtain rfl := Except.ok.inj ht
    have hsize := h.size
    refine ⟨⟨?_, fun i hi => fresh_update h.fresh hs _ i (Nat.lt_of_succ_lt hi), ?_, fun i hi => ?_⟩, rfl⟩
    · dsimp only
      omega
    · have hp := h.pointers.newLink hs
      dsimp only
      rw [update_field, update_field, update_eq_self]
      exact hp
    · dsimp only at hi ⊢
      by_cases his : i = s
      · subst his
        rw [update_self] at hi ⊢
        exact h.leads i hi
      · rw [update_of_ne his] at hi ⊢
        exact h.leads i hi

theorem Sound.enter (h : Sound t) (hs : s ≤ t.smax) (ht : enter t c s = .ok t') :
    Sound t' ∧ t'.smax = t.smax + 1 := by
  unfold Fgrep.enter Fgrep.newNst setInp at ht
  split at ht
  · exact absurd ht nofun
  next hroom =>
    obtain rfl := Except.ok.inj ht
    dsimp only at hroom
    have hsize := h.size
    refine ⟨⟨?_, fun i hi => ?_, ?_, fun i hi => ?_⟩, rfl⟩
    · dsimp only
      omega
    · exact fresh_update (fresh_update h.fresh hs _) hs _ i (Nat.lt_of_succ_lt hi)
    · have hp := h.pointers.newNst hs
      dsimp only
      rw [update_self, update_idem, update_field, update_field, update_eq_self]
      exact hp
    · dsimp only at hi ⊢
      by_cases his : i = s
      · subst his
        rw [update_self]
        exact Nat.succ_ne_zero _
      · rw [update_of_ne his, update_of_ne his] at hi ⊢
        exact h.leads i hi

theorem members_le (h : Sound t) {k : ℕ} (hs : s ≤ t.smax) : ∀ i ∈ members t.w k s, i ≤ t.smax := by
  induction k generalizing s with
  | zero => exact fun i hi => absurd hi not_mem_nil
  | succ k ih =>
    rw [members]
    intro i hi
    rcases mem_cons.mp hi with rfl | hi
    · exact hs
    · split at hi
      · exact absurd hi not_mem_nil
      · exact ih (h.pointers.link_le s) i hi

/-- The place for a character is in the table. -/
theorem Sound.look (h : Sound t) (hs : s ≤ t.smax) {spot : Spot} (ht : look t c s = .ok spot) :
    (∃ i, spot = .same i ∧ i ≤ t.smax) ∨ ∃ t' i, spot = .free t' i ∧ Sound t' ∧ i ≤ t'.smax := by
  unfold Fgrep.look at ht
  dsimp only at ht
  split at ht
  next i hi =>
    have hle := members_le h hs i (mem_of_find?_eq_some hi)
    obtain rfl := Except.ok.inj ht
    split
    · exact .inl ⟨i, rfl, hle⟩
    · exact .inr ⟨t, i, rfl, h, hle⟩
  next =>
    cases hl : Fgrep.newLink t ((members t.w MAXSIZ s).getLastD s) with
    | error e =>
      rw [hl] at ht
      exact absurd ht nofun
    | ok t' =>
      rw [hl] at ht
      obtain rfl := Except.ok.inj ht
      have hlast : (members t.w MAXSIZ s).getLastD s ≤ t.smax := by
        cases hm : members t.w MAXSIZ s with
        | nil => exact hs
        | cons x l =>
          rw [getLastD_cons]
          apply members_le h hs
          rw [hm]
          exact getLastD_mem_cons
      exact .inr ⟨t', t'.smax, rfl, (h.newLink hlast hl).1, Nat.le_refl _⟩

theorem Sound.finish (h : Sound t) (hs : s ≤ t.smax) (ht : finish xflag t s = .ok t') : Sound t' := by
  cases xflag with
  | false =>
    obtain rfl := Except.ok.inj ht
    exact h.setOut (Nat.le_refl _)
  | true =>
    cases he : Fgrep.enter t NEWLINE s with
    | error e =>
      rw [Fgrep.finish, if_pos rfl, he] at ht
      exact absurd ht nofun
    | ok u =>
      rw [Fgrep.finish, if_pos rfl, he] at ht
      obtain rfl := Except.ok.inj ht
      exact (h.enter hs he).1.setOut (Nat.le_refl _)

theorem Sound.known (h : Sound t) (hs : s ≤ t.smax) (ht : known xflag t s = .ok t') : Sound t' := by
  cases xflag with
  | false =>
    obtain rfl := Except.ok.inj ht
    exact h.setOut hs
  | true =>
    rw [Fgrep.known, if_pos rfl] at ht
    cases hl : Fgrep.look t NEWLINE s with
    | error e =>
      rw [hl] at ht
      exact absurd ht nofun
    | ok spot =>
      rw [hl] at ht
      rcases h.look hs hl with ⟨i, rfl, -⟩ | ⟨u, i, rfl, hu, hi⟩
      · change (if (t.w i).nst = 0 then Except.error Stop.null else .ok (Fgrep.setOut t (t.w i).nst)) = _ at ht
        split at ht
        · exact absurd ht nofun
        · obtain rfl := Except.ok.inj ht
          exact h.setOut (h.pointers.nst_le i)
      · exact hu.finish hi ht

/-- Where the loops go on is in the table. -/
def Mode.Within (t : Table) : Mode → Prop
  | .find s => s ≤ t.smax
  | .append => True

theorem Sound.loop {cs : List ℤ} {m : Mode} (h : Sound t) (hm : m.Within t)
    (ht : cgotofnLoop xflag cs m t = .ok t') : Sound t' := by
  induction cs generalizing m t with
  | nil =>
    cases m with
    | find s =>
      obtain rfl := Except.ok.inj ht
      exact h
    | append => exact h.finish (Nat.le_refl _) ht
  | cons c cs ih =>
    cases m with
    | find s =>
      rw [cgotofnLoop] at ht
      split at ht
      · obtain rfl := Except.ok.inj ht
        exact h
      split at ht
      · cases hk : Fgrep.known xflag t s with
        | error e =>
          rw [hk] at ht
          exact absurd ht nofun
        | ok u =>
          rw [hk] at ht
          exact ih (h.known hm hk) (Nat.zero_le _) ht
      · cases hl : Fgrep.look t c s with
        | error e =>
          rw [hl] at ht
          exact absurd ht nofun
        | ok spot =>
          rw [hl] at ht
          rcases h.look hm hl with ⟨i, rfl, -⟩ | ⟨u, i, rfl, hu, hi⟩
          · change (if (t.w i).nst = 0 then Except.error Stop.null else _) = _ at ht
            split at ht
            · exact absurd ht nofun
            · exact ih (m := .find (t.w i).nst) h (h.pointers.nst_le i) ht
          · change (Fgrep.enter u c i >>= _) = _ at ht
            cases he : Fgrep.enter u c i with
            | error e =>
              rw [he] at ht
              exact absurd ht nofun
            | ok v =>
              rw [he] at ht
              exact ih (m := .append) (hu.enter hi he).1 trivial ht
    | append =>
      rw [cgotofnLoop] at ht
      split at ht
      · exact h.finish (Nat.le_refl _) ht
      split at ht
      · cases hk : Fgrep.finish xflag t t.smax with
        | error e =>
          rw [hk] at ht
          exact absurd ht nofun
        | ok u =>
          rw [hk] at ht
          exact ih (h.finish (Nat.le_refl _) hk) (Nat.zero_le _) ht
      · cases he : Fgrep.enter t c t.smax with
        | error e =>
          rw [he] at ht
          exact absurd ht nofun
        | ok u =>
          rw [he] at ht
          exact ih (m := .append) (h.enter (Nat.le_refl _) he).1 trivial ht

/-- What `cgotofn` builds is sound. -/
theorem cgotofn_sound {input : List ℤ} (h : cgotofn xflag input = .ok t) : Sound t :=
  Sound.start.loop (Nat.zero_le _) h

end table

/-! ## Lists of nodes -/

section lists

variable {w : Nodes} {top s i x y z k k' : ℕ}

/-- `h` is not behind another node of a list. -/
def Head (w : Nodes) (h : ℕ) : Prop := ∀ i, (w i).link = h → h = 0

/-- The pointers of a table up to `top` -/
abbrev Linked (w : Nodes) (top : ℕ) : Prop := Pointers (fun i => (w i).link) (fun i => (w i).nst) top

theorem members_fuel (h : Linked w top) (hk : top < s + k) (hk' : top < s + k') (hs : s ≤ top) :
    members w k s = members w k' s := by
  induction k generalizing s k' with
  | zero => omega
  | succ k ih =>
    obtain ⟨k', rfl⟩ : ∃ j, k' = j + 1 := ⟨k' - 1, by omega⟩
    rw [members, members]
    split
    · rfl
    next hl =>
      have hup := h.link_up s hl
      have heq : members w k (w s).link = members w k' (w s).link := ih (by omega) (by omega) hup.2
      rw [heq]

theorem members_cons (h : Linked w top) (htop : top < MAXSIZ) (hs : s ≤ top) :
    members w MAXSIZ s = s :: if (w s).link = 0 then [] else members w MAXSIZ (w s).link := by
  have hfuel : members w MAXSIZ s = members w (MAXSIZ + 1) s := members_fuel h (by omega) (by omega) hs
  rw [hfuel]
  rfl

theorem le_members (h : Linked w top) : ∀ i ∈ members w k s, s ≤ i := by
  induction k generalizing s with
  | zero => exact fun i hi => absurd hi not_mem_nil
  | succ k ih =>
    intro i hi
    rw [members] at hi
    rcases mem_cons.mp hi with rfl | hi
    · exact Nat.le_refl _
    · split at hi
      · exact absurd hi not_mem_nil
      next hl =>
        have hup := h.link_up s hl
        have hle := ih i hi
        omega

theorem nodup_members (h : Linked w top) : (members w k s).Nodup := by
  induction k generalizing s with
  | zero => exact nodup_nil
  | succ k ih =>
    rw [members]
    refine nodup_cons.mpr ⟨?_, ?_⟩ <;> split
    · exact not_mem_nil
    next hl =>
      intro hmem
      have hup := h.link_up s hl
      have hle := le_members h s hmem
      omega
    · exact nodup_nil
    · exact ih

/-- Every node but the first is behind one of the list. -/
theorem members_behind (hi : i ∈ members w k s) : i = s ∨ i ≠ 0 ∧ ∃ j ∈ members w k s, (w j).link = i := by
  induction k generalizing s with
  | zero => exact absurd hi not_mem_nil
  | succ k ih =>
    rw [members] at hi ⊢
    rcases mem_cons.mp hi with rfl | hi
    · exact .inl rfl
    · split at hi
      · exact absurd hi not_mem_nil
      next hl =>
        right
        rw [if_neg hl]
        rcases ih hi with rfl | ⟨hne, j, hj, hji⟩
        · exact ⟨hl, s, mem_cons_self, rfl⟩
        · exact ⟨hne, j, mem_cons_of_mem s hj, hji⟩

/-- A node is in one list only. -/
theorem head_unique (h : Linked w top) (hx : Head w x) (hy : Head w y) (hix : i ∈ members w k x)
    (hiy : i ∈ members w k' y) : x = y := by
  induction i using Nat.strong_induction_on with
  | _ i ih =>
    rcases members_behind hix with rfl | ⟨hi, j, hj, rfl⟩
    · rcases members_behind hiy with rfl | ⟨hi, j, hj, hji⟩
      · rfl
      · exact absurd (hx j hji) hi
    · rcases members_behind hiy with rfl | ⟨-, j', hj', hji⟩
      · exact absurd (hy j rfl) hi
      · obtain rfl := h.link_inj j' j hji (hji ▸ hi)
        exact ih j' (h.link_up j' hi).1 hj hj'

theorem mem_kids : z ∈ kids w x ↔ ∃ i ∈ members w MAXSIZ x, (w i).inp ≠ 0 ∧ (w i).nst = z := by
  simp only [kids, leads, mem_map, mem_filter, decide_eq_true_eq, and_assoc]

theorem head_zero : Head w 0 := fun _ _ => rfl

variable (hsound : ∀ i, (w i).inp ≠ 0 → (w i).nst ≠ 0)
include hsound

/-- Lists that share a list behind them are the same. -/
theorem kids_unique (h : Linked w top) (hx : Head w x) (hy : Head w y) (hzx : z ∈ kids w x) (hzy : z ∈ kids w y) :
    x = y := by
  obtain ⟨i, hi, hinp, rfl⟩ := mem_kids.mp hzx
  obtain ⟨j, hj, -, hji⟩ := mem_kids.mp hzy
  obtain rfl := h.nst_inj j i hji (hji ▸ hsound i hinp)
  exact head_unique h hx hy hi hj

theorem kids_head (h : Linked w top) (hy : y ∈ kids w x) : Head w y ∧ y ≠ 0 := by
  obtain ⟨i, -, hinp, rfl⟩ := mem_kids.mp hy
  refine ⟨fun j hj => ?_, hsound i hinp⟩
  have hzero := h.apart j i hj
  exact hj.symm.trans hzero

theorem kids_nodup (h : Linked w top) (x : ℕ) : (kids w x).Nodup := by
  refine List.Nodup.map_on ?_ ((nodup_members h).filter _)
  intro i hi j _ hij
  have hinp : (w i).inp ≠ 0 := by simpa using (mem_filter.mp hi).2
  exact h.nst_inj i j hij (hsound i hinp)

/-- The lists but for the first one are a forest. -/
theorem forest (h : Linked w top) : Breadth.Forest (fun x => Head w x ∧ x ≠ 0) (kids w) where
  kid _ _ _ hy := kids_head hsound h hy
  nodup x _ := kids_nodup hsound h x
  unique _ _ _ hx hy := kids_unique hsound h hx.1 hy.1

theorem kid_lt (h : Linked w top) (hz : z ∈ kids w x) : x < z ∧ z ≤ top := by
  obtain ⟨i, hi, hinp, rfl⟩ := mem_kids.mp hz
  have hup := h.nst_up i (hsound i hinp)
  have hle := le_members h i hi
  omega

theorem level_lt (h : Linked w top) (n : ℕ) : ∀ x ∈ Breadth.level (kids w) (kids w 0) n, n < x ∧ x ≤ top := by
  induction n with
  | zero => exact fun x hx => kid_lt hsound h hx
  | succ n ih =>
    intro x hx
    obtain ⟨y, hy, hx⟩ := mem_flatMap.mp hx
    have hlt := kid_lt hsound h hx
    have hyn := ih y hy
    omega

/-- The queue takes all lists. -/
theorem entered_order (h : Linked w top) (htop : top < MAXSIZ) :
    Breadth.entered (kids w) (kids w 0) (order w).length = order w := by
  have hnil : Breadth.level (kids w) (kids w 0) MAXSIZ = [] := by
    rw [eq_nil_iff_forall_not_mem]
    intro x hx
    have hlt := level_lt hsound h MAXSIZ x hx
    omega
  exact Breadth.entered_all hnil

theorem order_nodup (h : Linked w top) (htop : top < MAXSIZ) : (order w).Nodup := by
  have hall := entered_order hsound h htop
  rw [← hall]
  apply (forest hsound h).nodup_entered (fun x hx => kids_head hsound h hx) (kids_nodup hsound h 0)
  · intro x hx z hz hroot
    exact hx.2 (kids_unique hsound h hx.1 head_zero hz hroot)
  · rw [hall]

theorem isList_iff (h : Linked w top) (htop : top < MAXSIZ) : IsList w x ↔ x ∈ order w := by
  have hall := entered_order hsound h htop
  have heq := Breadth.entered_eq (kids w) (kids w 0) (t := (order w).length) (by rw [hall])
  rw [hall, take_length] at heq
  constructor
  · intro hx
    induction hx with
    | first hx =>
      rw [heq]
      exact mem_append_left _ hx
    | kid _ hx ih =>
      rw [heq]
      exact mem_append_right _ (mem_flatMap.mpr ⟨_, ih, hx⟩)
  · intro hx
    rw [order, Breadth.levels, mem_flatMap] at hx
    obtain ⟨n, -, hx⟩ := hx
    induction n generalizing x with
    | zero => exact .first hx
    | succ n ih =>
      obtain ⟨y, hy, hx⟩ := mem_flatMap.mp hx
      exact .kid (ih hy) hx

end lists

end Svr3.Fgrep
