import Svr3.Sccs.Recorded

/-!
# The deltas of a list

`dolist` enters the deltas whose SIDs are in a list. A range is walked from its lower end as long as the SIDs are in
the delta table. On the trunk the upper end is only compared with the release, so that the last release is entered
with the levels above it too.
-/

namespace Svr3.Sccs.Lists

open List

/-! ## Items -/

/-- One SID or a range; what is left out in the list is completed. -/
inductive Item where
  | one (sid : Sid)
  | range (low high : Sid)
  deriving DecidableEq

def Item.low : Item → Sid
  | one sid => sid
  | range low _ => low

/-- The first item of a list, and what is behind it -/
def item (list : List Char) : Except Fault (Item × List Char) := do
  let low ← getasid list
  match low.2 with
  | '-' :: list => do
    let high ← getasid list
    pure (.range low.1 high.1, high.2)
  | list => pure (.one low.1, list)

/-- The items of a list; each of them takes characters. -/
def items : ℕ → List Char → Except Fault (List Item)
  | _, [] => .ok []
  | 0, _ => .error .wild
  | k + 1, list => do
    let r ← item list
    let is ← items k (if r.2.head? = some ',' then r.2.tail else r.2)
    pure (r.1 :: is)

/-- The SID is not before the other one, by release and level. -/
def atLeast (low sid : Sid) : Prop := low.rel.slt sid.rel = true ∨ (sid.rel = low.rel ∧ low.lev.sle sid.lev = true)

/-- The SIDs of an item: on the trunk by release and level, on a branch by sequence number -/
def Item.Denotes : Item → Sid → Prop
  | one s, sid => sid = s
  | range low high, sid =>
    if low.br = 0 then sid.br = 0 ∧ sid.seq = 0 ∧ atLeast low sid ∧ atLeast sid high
    else sid.rel = low.rel ∧ sid.lev = low.lev ∧ sid.br = low.br ∧ low.seq.sle sid.seq = true ∧
      sid.seq.sle high.seq = true

/-! ## The table -/

/-- The serial number is one of a delta; what was removed is zeroed. -/
def Delta (pkt : Deltas) (n : ℕ) : Prop := 0 < n ∧ n ≤ pkt.maxser ∧ (pkt.idel n).sid ≠ ⟨0, 0, 0, 0⟩

def InTable (pkt : Deltas) (sid : Sid) : Prop := ∃ n, Delta pkt n ∧ (pkt.idel n).sid = sid

/-- A delta table without duplicate SIDs. Serial numbers are integers. -/
structure Table where
  pkt : Deltas
  maxser_lt : pkt.maxser < 2 ^ 31
  nodup : ∀ m n, Delta pkt m → Delta pkt n → (pkt.idel m).sid = (pkt.idel n).sid → m = n

def nextLev (sid : Sid) : Sid := { sid with lev := sid.lev + 1 }

def nextSeq (sid : Sid) : Sid := { sid with seq := sid.seq + 1 }

/-- Where the walk through a release begins -/
def firstOf (low : Sid) (rel : BitVec 32) : Sid := ⟨rel, if rel = low.rel then low.lev else 1, 0, 0⟩

/-- The SIDs from the lower end of an item, or from the first level of a later release, up to this one are all in
the table. -/
def Item.Gapless (pkt : Deltas) : Item → Sid → Prop
  | one s, sid => sid = s
  | range low high, sid =>
    if low.br = 0 then low.rel.sle sid.rel = true ∧ sid.rel.sle high.rel = true ∧
      ∃ i, sid = nextLev^[i] (firstOf low sid.rel) ∧ ∀ j ≤ i, InTable pkt (nextLev^[j] (firstOf low sid.rel))
    else ∃ i, sid = nextSeq^[i] low ∧
      ∀ j ≤ i, (nextSeq^[j] low).seq.sle high.seq = true ∧ InTable pkt (nextSeq^[j] low)

/-! ## The calls of `enter` -/

/-- The serial numbers of a walk -/
def callsFrom (pkt : Deltas) (next : Sid → Sid) (more : Sid → Bool) : ℕ → Sid → List ℕ
  | 0, _ => []
  | k + 1, sid =>
    if more sid ∧ sidtoser sid pkt ≠ 0 then sidtoser sid pkt :: callsFrom pkt next more k (next sid) else []

/-- The releases of a range -/
def rels (low high : Sid) : List (BitVec 32) :=
  (List.range (high.rel.toInt - low.rel.toInt + 1).toNat).map fun i => low.rel + BitVec.ofNat 32 i

/-- The serial numbers that `enter` gets for an item -/
def Item.calls (pkt : Deltas) : Item → List ℕ
  | one sid => if sidtoser sid pkt ≠ 0 then [sidtoser sid pkt] else []
  | range low high =>
    if low.br = 0 then
      (rels low high).flatMap fun rel => callsFrom pkt nextLev (fun _ => true) (pkt.maxser + 1) (firstOf low rel)
    else callsFrom pkt nextSeq (fun s => s.seq.sle high.seq) (pkt.maxser + 1) low

/-- `enter` for one serial number after the other -/
def enterAll (ch : Char) (ns : List ℕ) (pkt : Deltas) : Except Fault Deltas := ns.foldlM (fun p n => enter ch n p) pkt

section calls

variable {ch : Char} {p q : Deltas} {next : Sid → Sid} {more : Sid → Bool} {k n : ℕ} {sid low high : Sid}

theorem enter_same (h : enter ch n p = .ok q) : SameTable p q := by
  unfold enter at h
  split at h
  · split at h
    · obtain rfl := Except.ok.inj h
      split_ifs
      all_goals exact ⟨rfl, rfl, rfl⟩
    · exact absurd h nofun
    · exact absurd h nofun
  · obtain rfl := Except.ok.inj h
    exact .refl p

theorem enterAll_append {ns ms : List ℕ} {o : Deltas} (h : enterAll ch ns p = .ok q) (h' : enterAll ch ms q = .ok o) :
    enterAll ch (ns ++ ms) p = .ok o := by
  unfold enterAll at h h' ⊢
  rw [foldlM_append, h]
  exact h'

theorem callsFrom_same (h : SameTable p q) (k : ℕ) (sid : Sid) :
    callsFrom q next more k sid = callsFrom p next more k sid := by
  induction k generalizing sid with
  | zero => rfl
  | succ k ih => rw [callsFrom, callsFrom, sidtoser_same h, ih]

theorem Item.calls_same (h : SameTable p q) (i : Item) : i.calls q = i.calls p := by
  cases i with
  | one sid => rw [calls, calls, sidtoser_same h]
  | range low high => simp only [calls, callsFrom_same h, h.maxser]

/-- What a walk that ends has entered, and where it ended -/
structure Walked (ch : Char) (next : Sid → Sid) (more : Sid → Bool) (k : ℕ) (sid : Sid) (p q : Deltas) : Prop where
  same : SameTable p q
  entered : enterAll ch (callsFrom p next more k sid) p = .ok q
  ends : ∃ i < k, ¬(more (next^[i] sid) = true ∧ sidtoser (next^[i] sid) p ≠ 0)

theorem enterSids_walked (hok : enterSids ch next more k sid p = .ok q) : Walked ch next more k sid p q := by
  induction k generalizing sid p with
  | zero => cases hok
  | succ k ih =>
    rw [enterSids] at hok
    by_cases hmore : more sid = true ∧ sidtoser sid p ≠ 0
    · rw [if_pos hmore] at hok
      cases ho : enter ch (sidtoser sid p) p with
      | error e =>
        rw [ho] at hok
        cases hok
      | ok o =>
        rw [ho] at hok
        have hsame := enter_same ho
        obtain ⟨hrest, hentered, i, hi, hend⟩ := ih hok
        rw [callsFrom_same hsame] at hentered
        rw [sidtoser_same hsame] at hend
        refine ⟨hsame.trans hrest, ?_, i + 1, Nat.succ_lt_succ hi, hend⟩
        rw [callsFrom, if_pos hmore]
        have hfirst : enterAll ch [sidtoser sid p] p = .ok o := by
          unfold enterAll
          rw [foldlM_cons, ho]
          rfl
        exact enterAll_append hfirst hentered
    · rw [if_neg hmore] at hok
      obtain rfl := Except.ok.inj hok
      refine ⟨.refl p, ?_, 0, Nat.succ_pos k, hmore⟩
      rw [callsFrom, if_neg hmore]
      rfl

theorem mem_callsFrom : n ∈ callsFrom p next more k sid ↔
    ∃ i < k, (∀ j ≤ i, more (next^[j] sid) = true ∧ sidtoser (next^[j] sid) p ≠ 0) ∧
      n = sidtoser (next^[i] sid) p := by
  induction k generalizing sid with
  | zero => simp [callsFrom]
  | succ k ih =>
    rw [callsFrom]
    by_cases hmore : more sid = true ∧ sidtoser sid p ≠ 0
    · rw [if_pos hmore, mem_cons, ih]
      constructor
      · rintro (rfl | ⟨i, hi, hall, rfl⟩)
        · refine ⟨0, Nat.succ_pos k, ?_, rfl⟩
          intro j hj
          obtain rfl := Nat.le_zero.mp hj
          exact hmore
        · refine ⟨i + 1, Nat.succ_lt_succ hi, ?_, rfl⟩
          intro j hj
          cases j with
          | zero => exact hmore
          | succ j => exact hall j (Nat.le_of_succ_le_succ hj)
      · rintro ⟨i, hi, hall, rfl⟩
        cases i with
        | zero => exact .inl rfl
        | succ i =>
          exact .inr ⟨i, Nat.lt_of_succ_lt_succ hi, fun j hj => hall (j + 1) (Nat.succ_le_succ hj), rfl⟩
    · rw [if_neg hmore]
      constructor
      · intro h
        exact absurd h not_mem_nil
      · rintro ⟨i, -, hall, -⟩
        exact absurd (hall 0 (Nat.zero_le i)) hmore

/-! ## A list -/

/-- The walks through the releases `rs` -/
structure RelsWalked (ch : Char) (low : Sid) (rs : List (BitVec 32)) (p q : Deltas) : Prop where
  same : SameTable p q
  entered : enterAll ch (rs.flatMap fun rel => callsFrom p nextLev (fun _ => true) (p.maxser + 1) (firstOf low rel)) p =
    .ok q
  ends : ∀ rel ∈ rs, ∃ i < p.maxser + 1, sidtoser (nextLev^[i] (firstOf low rel)) p = 0

theorem enterRels_walked {rs : List (BitVec 32)} (hok : enterRels ch low rs p = .ok q) : RelsWalked ch low rs p q := by
  induction rs generalizing p with
  | nil =>
    obtain rfl := Except.ok.inj hok
    exact ⟨.refl p, rfl, by simp⟩
  | cons rel rs ih =>
    rw [enterRels] at hok
    cases ho : enterSids ch nextLev (fun _ => true) (p.maxser + 1) (firstOf low rel) p with
    | error e =>
      change enterSids ch nextLev (fun _ => true) (p.maxser + 1) (firstOf low rel) p >>= _ = _ at hok
      rw [ho] at hok
      cases hok
    | ok o =>
      change enterSids ch nextLev (fun _ => true) (p.maxser + 1) (firstOf low rel) p >>= _ = _ at hok
      rw [ho] at hok
      obtain ⟨hsame, hfirst, i, hi, hend⟩ := enterSids_walked ho
      obtain ⟨hrest, hentered, hends⟩ := ih hok
      refine ⟨hsame.trans hrest, ?_, ?_⟩
      · simp only [callsFrom_same hsame, hsame.maxser] at hentered
        rw [flatMap_cons]
        exact enterAll_append hfirst hentered
      · simp only [sidtoser_same hsame, hsame.maxser] at hends
        refine forall_mem_cons.mpr ⟨⟨i, hi, ?_⟩, hends⟩
        by_contra hne
        exact hend ⟨rfl, hne⟩

/-- The walks of an item end before all turns are used. -/
def Item.Ends (p : Deltas) : Item → Prop
  | one _ => True
  | range low high =>
    if low.br = 0 then ∀ rel ∈ rels low high, ∃ i < p.maxser + 1, sidtoser (nextLev^[i] (firstOf low rel)) p = 0
    else ∃ i < p.maxser + 1, ¬((nextSeq^[i] low).seq.sle high.seq = true ∧ sidtoser (nextSeq^[i] low) p ≠ 0)

theorem Item.ends_same (h : SameTable p q) (i : Item) (hq : i.Ends q) : i.Ends p := by
  cases i with
  | one sid => trivial
  | range low high => simpa only [Ends, sidtoser_same h, h.maxser] using hq

/-- What an item that was accepted has entered -/
structure ItemDone (ch : Char) (i : Item) (p q : Deltas) : Prop where
  same : SameTable p q
  entered : enterAll ch (i.calls p) p = .ok q
  ends : i.Ends p
  release : i.low.rel ≠ 0

theorem enterRange_done (hrel : low.rel ≠ 0) (hok : enterRange ch low high p = .ok q) :
    ItemDone ch (.range low high) p q := by
  rw [enterRange] at hok
  by_cases hbr : low.br = 0
  · rw [if_pos hbr] at hok
    split at hok
    · cases hok
    · split at hok
      · cases hok
      · obtain ⟨hsame, hentered, hends⟩ := enterRels_walked hok
        refine ⟨hsame, ?_, ?_, hrel⟩
        · rw [Item.calls, if_pos hbr]
          exact hentered
        · rw [Item.Ends, if_pos hbr]
          exact hends
  · rw [if_neg hbr] at hok
    split at hok
    · cases hok
    · obtain ⟨hsame, hentered, hend⟩ := enterSids_walked hok
      refine ⟨hsame, ?_, ?_, hrel⟩
      · rw [Item.calls, if_neg hbr]
        exact hentered
      · rw [Item.Ends, if_neg hbr]
        exact hend

theorem getasid_rel {list : List Char} {r : Sid × List Char} (h : getasid list = .ok r) : r.1.rel ≠ 0 := by
  unfold getasid at h
  dsimp only at h
  split at h
  · exact absurd h nofun
  · rename_i hrel
    rw [not_or] at hrel
    split_ifs at h
    all_goals
      obtain rfl := Except.ok.inj h
      exact hrel.2

theorem item_range {list list' : List Char} {l h : Sid × List Char} (hlow : getasid list = .ok l)
    (hdash : l.2 = '-' :: list') (hhigh : getasid list' = .ok h) : item list = .ok (.range l.1 h.1, h.2) := by
  unfold item
  rw [hlow]
  dsimp only [bind, Except.bind]
  rw [hdash]
  change (getasid list' >>= fun h => pure (Item.range l.1 h.1, h.2)) = _
  rw [hhigh]
  rfl

theorem item_one {list : List Char} {l : Sid × List Char} (hlow : getasid list = .ok l)
    (hdash : ∀ list', l.2 = '-' :: list' → False) : item list = .ok (.one l.1, l.2) := by
  unfold item
  rw [hlow]
  dsimp only [bind, Except.bind]
  split
  · rename_i list' heq
    exact absurd heq (hdash list')
  · rfl

theorem enterItem_done {list : List Char} {r : Deltas × List Char} (hok : enterItem ch list p = .ok r) :
    ∃ i, item list = .ok (i, r.2) ∧ ItemDone ch i p r.1 := by
  unfold enterItem at hok
  cases hlow : getasid list with
  | error e =>
    rw [hlow] at hok
    exact absurd hok nofun
  | ok low =>
    rw [hlow] at hok
    have hrel := getasid_rel hlow
    dsimp only [bind, Except.bind] at hok
    split at hok
    next list' hdash =>
      cases hhigh : getasid list' with
      | error e =>
        rw [hhigh] at hok
        exact absurd hok nofun
      | ok high =>
        rw [hhigh] at hok
        dsimp only at hok
        cases ho : enterRange ch low.1 high.1 p with
        | error e =>
          rw [ho] at hok
          exact absurd hok nofun
        | ok o =>
          rw [ho] at hok
          obtain rfl := Except.ok.inj hok
          exact ⟨.range low.1 high.1, item_range hlow hdash hhigh, enterRange_done hrel ho⟩
    next hdash =>
      split at hok
      next hin =>
        cases ho : enter ch (sidtoser low.1 p) p with
        | error e =>
          rw [ho] at hok
          exact absurd hok nofun
        | ok o =>
          rw [ho] at hok
          obtain rfl := Except.ok.inj hok
          refine ⟨.one low.1, item_one hlow hdash, enter_same ho, ?_, trivial, hrel⟩
          rw [Item.calls, if_pos hin]
          unfold enterAll
          rw [foldlM_cons, ho]
          rfl
      next hout =>
        obtain rfl := Except.ok.inj hok
        refine ⟨.one low.1, item_one hlow hdash, .refl p, ?_, trivial, hrel⟩
        rw [Item.calls, if_neg hout]
        rfl

/-- A list that is accepted enters its items one after the other. -/
theorem dolistLoop_done {list : List Char} (hok : dolistLoop ch k list p = .ok q) :
    ∃ is, items k list = .ok is ∧ enterAll ch (is.flatMap (Item.calls p)) p = .ok q ∧
      ∀ i ∈ is, i.Ends p ∧ i.low.rel ≠ 0 := by
  induction k generalizing list p with
  | zero =>
    cases list with
    | nil =>
      obtain rfl := Except.ok.inj hok
      exact ⟨[], rfl, rfl, by simp⟩
    | cons c cs => cases hok
  | succ k ih =>
    cases list with
    | nil =>
      obtain rfl := Except.ok.inj hok
      exact ⟨[], rfl, rfl, by simp⟩
    | cons c cs =>
      rw [dolistLoop] at hok
      · cases hr : enterItem ch (c :: cs) p with
        | error e =>
          rw [hr] at hok
          cases hok
        | ok r =>
          rw [hr] at hok
          obtain ⟨i, hitem, hdone⟩ := enterItem_done hr
          obtain ⟨is, his, hentered, hends⟩ := ih hok
          refine ⟨i :: is, ?_, ?_, ?_⟩
          · rw [items, hitem]
            · dsimp only [bind, Except.bind]
              rw [his]
              rfl
            · rintro ⟨⟩
          · rw [flatMap_congr fun i _ => i.calls_same hdone.same] at hentered
            rw [flatMap_cons]
            exact enterAll_append hdone.entered hentered
          · refine forall_mem_cons.mpr ⟨⟨hdone.ends, hdone.release⟩, fun j hj => ?_⟩
            obtain ⟨hend, hrel⟩ := hends j hj
            exact ⟨j.ends_same hdone.same hend, hrel⟩
      · rintro ⟨⟩

end calls

/-! ## What is entered -/

section entered

variable {t : Table} {p : Deltas} {n : ℕ} {sid low high : Sid}

theorem sidFrom_spec {n : ℕ} (h : sidFrom sid p n ≠ 0) :
    0 < sidFrom sid p n ∧ sidFrom sid p n ≤ n ∧ (p.idel (sidFrom sid p n)).sid = sid := by
  induction n with
  | zero => exact absurd rfl h
  | succ n ih =>
    rw [sidFrom] at h ⊢
    split_ifs at h ⊢ with heq
    · exact ⟨Nat.succ_pos n, Nat.le_refl _, heq⟩
    · obtain ⟨hpos, hle, hsid⟩ := ih h
      exact ⟨hpos, Nat.le_succ_of_le hle, hsid⟩

theorem sidFrom_ne {n m : ℕ} (hpos : 0 < m) (hle : m ≤ n) (hsid : (p.idel m).sid = sid) : sidFrom sid p n ≠ 0 := by
  induction n with
  | zero => omega
  | succ n ih =>
    rw [sidFrom]
    split_ifs with heq
    · exact Nat.succ_ne_zero n
    · apply ih
      have hne : m ≠ n + 1 := by
        rintro rfl
        exact heq hsid
      omega

/-- A SID that is not zero is found if and only if it is one of a delta. -/
theorem sidtoser_ne (hsid : sid ≠ ⟨0, 0, 0, 0⟩) : sidtoser sid p ≠ 0 ↔ InTable p sid := by
  constructor
  · intro h
    obtain ⟨hpos, hle, heq⟩ := sidFrom_spec h
    exact ⟨_, ⟨hpos, hle, by rw [heq]; exact hsid⟩, heq⟩
  · rintro ⟨n, ⟨hpos, hle, -⟩, heq⟩
    exact sidFrom_ne hpos hle heq

theorem InTable.ne (h : InTable p sid) : sid ≠ ⟨0, 0, 0, 0⟩ := by
  obtain ⟨n, hn, rfl⟩ := h
  exact hn.2.2

theorem InTable.found (h : InTable p sid) : sidtoser sid p ≠ 0 := (sidtoser_ne h.ne).mpr h

/-- Without duplicates the serial number belongs to the SID. -/
theorem Table.eq_sidtoser (t : Table) (hsid : sid ≠ ⟨0, 0, 0, 0⟩) (hne : sidtoser sid t.pkt ≠ 0) :
    n = sidtoser sid t.pkt ↔ Delta t.pkt n ∧ (t.pkt.idel n).sid = sid := by
  obtain ⟨hpos, hle, heq⟩ := sidFrom_spec hne
  have hdelta : Delta t.pkt (sidtoser sid t.pkt) := ⟨hpos, hle, by
    change (t.pkt.idel (sidFrom sid t.pkt t.pkt.maxser)).sid ≠ _
    rw [heq]
    exact hsid⟩
  constructor
  · rintro rfl
    exact ⟨hdelta, heq⟩
  · rintro ⟨hn, hnsid⟩
    exact t.nodup _ _ hn hdelta (hnsid.trans heq.symm)

theorem toInt_add_ofNat {a : BitVec 32} {i : ℕ} (h : a.toInt + i < 2 ^ 31) :
    (a + BitVec.ofNat 32 i).toInt = a.toInt + i := by
  have hlo := BitVec.le_toInt a
  rw [BitVec.toInt_add, BitVec.toInt_ofNat', Int.add_bmod_bmod]
  exact Int.bmod_eq_of_le (by omega) (by omega)

theorem mem_rels {rel : BitVec 32} : rel ∈ rels low high ↔ low.rel.sle rel = true ∧ rel.sle high.rel = true := by
  have hhigh := BitVec.toInt_lt (x := high.rel)
  rw [rels, mem_map, BitVec.sle_iff_toInt_le, BitVec.sle_iff_toInt_le]
  constructor
  · rintro ⟨i, hi, rfl⟩
    rw [mem_range] at hi
    rw [toInt_add_ofNat (by omega)]
    omega
  · rintro ⟨hlow, hle⟩
    refine ⟨(rel.toInt - low.rel.toInt).toNat, mem_range.mpr (by omega), ?_⟩
    apply BitVec.eq_of_toInt_eq
    rw [toInt_add_ofNat (by omega)]
    omega

theorem nextLev_iter (i : ℕ) (s : Sid) : nextLev^[i] s = { s with lev := s.lev + BitVec.ofNat 32 i } := by
  induction i generalizing s with
  | zero => simp
  | succ i ih =>
    rw [Function.iterate_succ_apply, ih, nextLev, Nat.add_comm i 1, BitVec.ofNat_add, BitVec.add_assoc]
    rfl

theorem nextSeq_iter (i : ℕ) (s : Sid) : nextSeq^[i] s = { s with seq := s.seq + BitVec.ofNat 32 i } := by
  induction i generalizing s with
  | zero => simp
  | succ i ih =>
    rw [Function.iterate_succ_apply, ih, nextSeq, Nat.add_comm i 1, BitVec.ofNat_add, BitVec.add_assoc]
    rfl

/-- The walk through a release does not come to the SID of what was removed. -/
theorem firstOf_ne (hrel : low.rel ≠ 0) (rel : BitVec 32) {i : ℕ} (hi : i < 2 ^ 31) :
    nextLev^[i] (firstOf low rel) ≠ ⟨0, 0, 0, 0⟩ := by
  intro h
  rw [nextLev_iter, firstOf] at h
  obtain ⟨hr, hl, -⟩ := Sid.mk.inj h
  subst hr
  rw [if_neg (Ne.symm hrel)] at hl
  have hnat := congrArg BitVec.toNat hl
  rw [BitVec.toNat_add, BitVec.toNat_ofNat] at hnat
  simp at hnat
  omega

theorem nextSeq_ne (hbr : low.br ≠ 0) (i : ℕ) : nextSeq^[i] low ≠ ⟨0, 0, 0, 0⟩ := by
  intro h
  rw [nextSeq_iter] at h
  exact hbr (Sid.mk.inj h).2.2.1

/-- The members of a walk that ends -/
theorem mem_walk {next : Sid → Sid} {more : Sid → Bool} (hne : ∀ i < t.pkt.maxser + 1, next^[i] sid ≠ ⟨0, 0, 0, 0⟩)
    (hend : ∃ i < t.pkt.maxser + 1, ¬(more (next^[i] sid) = true ∧ sidtoser (next^[i] sid) t.pkt ≠ 0)) :
    n ∈ callsFrom t.pkt next more (t.pkt.maxser + 1) sid ↔ Delta t.pkt n ∧
      ∃ i, (t.pkt.idel n).sid = next^[i] sid ∧ ∀ j ≤ i, more (next^[j] sid) = true ∧ InTable t.pkt (next^[j] sid) := by
  rw [mem_callsFrom]
  constructor
  · rintro ⟨i, hi, hall, heq⟩
    obtain ⟨hn, hsid⟩ := (t.eq_sidtoser (hne i hi) (hall i (Nat.le_refl i)).2).mp heq
    refine ⟨hn, i, hsid, fun j hj => ?_⟩
    obtain ⟨hmore, hin⟩ := hall j hj
    exact ⟨hmore, (sidtoser_ne (hne j (Nat.lt_of_le_of_lt hj hi))).mp hin⟩
  · rintro ⟨hn, i, hsid, hall⟩
    have hfound (j : ℕ) (hj : j ≤ i) : more (next^[j] sid) = true ∧ sidtoser (next^[j] sid) t.pkt ≠ 0 :=
      ⟨(hall j hj).1, (hall j hj).2.found⟩
    have hi : i < t.pkt.maxser + 1 := by
      obtain ⟨m, hm, hend⟩ := hend
      by_contra hle
      exact hend (hfound m (by omega))
    refine ⟨i, hi, hfound, ?_⟩
    exact (t.eq_sidtoser (hall i (Nat.le_refl i)).2.ne (hfound i (Nat.le_refl i)).2).mpr ⟨hn, hsid⟩

/-- An item enters the deltas that are reached without a gap. -/
theorem Item.mem_calls {i : Item} (hrel : i.low.rel ≠ 0) (hend : i.Ends t.pkt) :
    n ∈ i.calls t.pkt ↔ Delta t.pkt n ∧ i.Gapless t.pkt (t.pkt.idel n).sid := by
  have hmax := t.maxser_lt
  cases i with
  | one sid =>
    have hsid : sid ≠ ⟨0, 0, 0, 0⟩ := fun h => hrel (congrArg Sid.rel h)
    rw [calls, Gapless]
    split_ifs with hin
    · rw [mem_singleton, t.eq_sidtoser hsid hin]
    · constructor
      · intro h
        exact absurd h not_mem_nil
      · rintro ⟨hn, heq⟩
        exact absurd ((sidtoser_ne hsid).mpr ⟨n, hn, heq⟩) hin
  | range low high =>
    rw [calls, Gapless]
    by_cases hbr : low.br = 0
    · rw [if_pos hbr, if_pos hbr, mem_flatMap]
      rw [Ends, if_pos hbr] at hend
      have hwalk (rel : BitVec 32) (hmem : rel ∈ rels low high) :
          n ∈ callsFrom t.pkt nextLev (fun _ => true) (t.pkt.maxser + 1) (firstOf low rel) ↔ Delta t.pkt n ∧
            ∃ i, (t.pkt.idel n).sid = nextLev^[i] (firstOf low rel) ∧
              ∀ j ≤ i, true = true ∧ InTable t.pkt (nextLev^[j] (firstOf low rel)) := by
        obtain ⟨i, hi, hzero⟩ := hend rel hmem
        exact mem_walk (fun i hi => firstOf_ne hrel rel (by omega)) ⟨i, hi, fun h => h.2 hzero⟩
      constructor
      · rintro ⟨rel, hmem, hin⟩
        obtain ⟨hn, i, hsid, hall⟩ := (hwalk rel hmem).mp hin
        obtain ⟨hlow, hhigh⟩ := mem_rels.mp hmem
        have hr : (t.pkt.idel n).sid.rel = rel := by
          rw [hsid, nextLev_iter]
          rfl
        rw [hr]
        exact ⟨hn, hlow, hhigh, i, hsid, fun j hj => (hall j hj).2⟩
      · rintro ⟨hn, hlow, hhigh, i, hsid, hall⟩
        have hmem := mem_rels.mpr ⟨hlow, hhigh⟩
        exact ⟨_, hmem, (hwalk _ hmem).mpr ⟨hn, i, hsid, fun j hj => ⟨rfl, hall j hj⟩⟩⟩
    · rw [if_neg hbr, if_neg hbr]
      rw [Ends, if_neg hbr] at hend
      exact mem_walk (fun i _ => nextSeq_ne hbr i) hend

end entered

/-- The list is exact for a table: what a range reaches beyond its end is denoted by another item, and what it does
not reach because of a gap is reached by another one. -/
structure Exact (pkt : Deltas) (is : List Item) : Prop where
  clipped : ∀ i ∈ is, ∀ n, Delta pkt n → i.Gapless pkt (pkt.idel n).sid → ¬i.Denotes (pkt.idel n).sid →
    ∃ i' ∈ is, i'.Denotes (pkt.idel n).sid
  gapless : ∀ i ∈ is, ∀ n, Delta pkt n → i.Denotes (pkt.idel n).sid → ¬i.Gapless pkt (pkt.idel n).sid →
    ∃ i' ∈ is, i'.Gapless pkt (pkt.idel n).sid

/-- The deltas 1.1, 1.2 and 1.3 -/
def threeLevels : Table where
  pkt := { allocated 3 (BitVec.intMax 32) with idel := fun n => ⟨⟨1, BitVec.ofNat 32 n, 0, 0⟩, [], n - 1, 0⟩ }
  maxser_lt := by decide
  nodup m n hm hn h := by
    have hlev := congrArg BitVec.toNat (congrArg Sid.lev h)
    have hle : m ≤ 3 ∧ n ≤ 3 := ⟨hm.2.1, hn.2.1⟩
    change (BitVec.ofNat 32 m).toNat = (BitVec.ofNat 32 n).toNat at hlev
    rw [BitVec.toNat_ofNat, BitVec.toNat_ofNat] at hlev
    omega

/-- A list that is accepted enters the deltas that it denotes if and only if it is exact for the table. -/
theorem dolist_exact_iff (t : Table) (list : List Char) (ch : Char) (q : Deltas) (hok : dolist list ch t.pkt = .ok q) :
    ∃ is, items list.length list = .ok is ∧ enterAll ch (is.flatMap (Item.calls t.pkt)) t.pkt = .ok q ∧
      ((∀ n, n ∈ is.flatMap (Item.calls t.pkt) ↔ Delta t.pkt n ∧ ∃ i ∈ is, i.Denotes (t.pkt.idel n).sid) ↔
        Exact t.pkt is) := by
  obtain ⟨is, his, hentered, hends⟩ := dolistLoop_done hok
  refine ⟨is, his, hentered, ?_⟩
  have hmem (n : ℕ) : n ∈ is.flatMap (Item.calls t.pkt) ↔
      Delta t.pkt n ∧ ∃ i ∈ is, i.Gapless t.pkt (t.pkt.idel n).sid := by
    rw [mem_flatMap]
    constructor
    · rintro ⟨i, hi, hn⟩
      obtain ⟨hdelta, hgap⟩ := (Item.mem_calls (hends i hi).2 (hends i hi).1).mp hn
      exact ⟨hdelta, i, hi, hgap⟩
    · rintro ⟨hdelta, i, hi, hgap⟩
      exact ⟨i, hi, (Item.mem_calls (hends i hi).2 (hends i hi).1).mpr ⟨hdelta, hgap⟩⟩
  constructor
  · intro h
    refine ⟨?_, ?_⟩
    · intro i hi n hn hgap _
      exact ((h n).mp ((hmem n).mpr ⟨hn, i, hi, hgap⟩)).2
    · intro i hi n hn hdenotes _
      exact ((hmem n).mp ((h n).mpr ⟨hn, i, hi, hdenotes⟩)).2
  · intro h n
    rw [hmem n]
    refine and_congr_right fun hn => ⟨?_, ?_⟩
    · rintro ⟨i, hi, hgap⟩
      by_cases hdenotes : i.Denotes (t.pkt.idel n).sid
      · exact ⟨i, hi, hdenotes⟩
      · exact h.clipped i hi n hn hgap hdenotes
    · rintro ⟨i, hi, hdenotes⟩
      by_cases hgap : i.Gapless t.pkt (t.pkt.idel n).sid
      · exact ⟨i, hi, hgap⟩
      · exact h.gapless i hi n hn hdenotes hgap

theorem dolist_exact_one : ∃ is, items 3 "1.2".toList = .ok is ∧
    ((∀ n, n ∈ is.flatMap (Item.calls threeLevels.pkt) ↔
      Delta threeLevels.pkt n ∧ ∃ i ∈ is, i.Denotes (threeLevels.pkt.idel n).sid) ↔ Exact threeLevels.pkt is) := by
  obtain ⟨is, his, -, hiff⟩ := dolist_exact_iff threeLevels "1.2".toList INCLUDE _ rfl
  exact ⟨is, his, hiff⟩

/-- The range up to 1.2 enters 1.3 too. -/
theorem dolist_enters_above : (∃ q, dolist "1.1-1.2".toList INCLUDE threeLevels.pkt = .ok q) ∧
    items 7 "1.1-1.2".toList = .ok [.range ⟨1, 1, 0, 0⟩ ⟨1, 2, 0, 0⟩] ∧
    ¬∀ n, n ∈ [Item.range ⟨1, 1, 0, 0⟩ ⟨1, 2, 0, 0⟩].flatMap (Item.calls threeLevels.pkt) ↔
      Delta threeLevels.pkt n ∧ ∃ i ∈ [Item.range ⟨1, 1, 0, 0⟩ ⟨1, 2, 0, 0⟩], i.Denotes (threeLevels.pkt.idel n).sid := by
  refine ⟨⟨_, rfl⟩, rfl, fun h => ?_⟩
  obtain ⟨-, i, hi, hdenotes⟩ := (h 3).mp (by decide)
  obtain rfl := mem_singleton.mp hi
  rw [Item.Denotes, if_pos rfl] at hdenotes
  exact absurd hdenotes.2.2.2 (by simp [atLeast]; decide)

end Svr3.Sccs.Lists
