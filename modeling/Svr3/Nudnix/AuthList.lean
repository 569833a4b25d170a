import Svr3.Lib.Bytes

/-!
# Authorization lists

A list of the machines that may mount a resource is a row of counted names, closed by the count 0. `checkalist`
compares a name with all of them, and reads the count behind an item as if it were a letter of it.
-/

namespace Svr3.AuthList

open List

def SEPARATOR : Byte := 46

/-! ## The model -/

/-- The loop over two strings, `p` to the end of its own: where they differ. `none` after `n` turns. -/
def scan (m : Mem) : ℕ → ℕ → ℕ → Option (ℕ × ℕ)
  | 0, _, _ => none
  | n + 1, p, q =>
    if m p = 0 then some (p, q)
    else if m p ≠ m q then some (p, q)
    else scan m n (p + 1) (q + 1)

/-- The part of the name behind the domain of this machine; it is `some none` for a name that is not local. -/
def namepart (m : Mem) (n domain name : ℕ) : Option (Option ℕ) := do
  let (lp, np) ← scan m n domain name
  some (if m np = SEPARATOR ∧ m lp = 0 then some (np + 1) else none)

/-- The loop over the items -/
def checkLoop (m : Mem) (n name : ℕ) (npart : Option ℕ) : ℕ → ℕ → Option Bool
  | 0, _ => none
  | fuel + 1, lp =>
    if 0 < (m lp).toInt then do
      let nlp := lp + (m lp).toNat + 1
      let sp := lp + 1
      let (np, lp) ← scan m n name sp
      if (m np = 0 ∧ nlp = lp) ∨ (m (np - 1) = SEPARATOR ∧ lp = nlp ∧ m (lp - 1) = SEPARATOR) then some true
      else
        match npart with
        | none => checkLoop m n name npart fuel nlp
        | some part => do
          let (np, lp) ← scan m n part sp
          if m np = 0 ∧ lp = nlp then some true else checkLoop m n name npart fuel nlp
    else some false

/-- Each loop has `n` turns at most. -/
def checkalist (m : Mem) (n domain ref name : ℕ) : Option Bool := do
  let npart ← namepart m n domain name
  checkLoop m n name npart n ref

/-! ## Lists -/

/-- A name that a list can have -/
structure Item where
  name : List Byte
  named : ∀ x ∈ name, x ≠ 0
  short : 0 < name.length ∧ name.length ≤ 127

namespace Item

def count (it : Item) : Byte := BitVec.ofNat 8 it.name.length

end Item

/-- The counted format -/
def alist : List Item → List Byte
  | [] => [0]
  | it :: its => it.count :: it.name ++ alist its

/-- The rule: `it` lets the machine `nm` in. -/
def Admits (dom nm : List Byte) (it : Item) : Prop :=
  nm = it.name ∨ (it.name.getLast? = some SEPARATOR ∧ it.name <+: nm) ∨ nm = dom ++ SEPARATOR :: it.name

/-- `it` is found, with the byte `z` behind it in the list: it is not a prefix that `z` makes longer. -/
def Finds (dom nm : List Byte) (it : Item) (z : Byte) : Prop :=
  nm = it.name ∨ (it.name.getLast? = some SEPARATOR ∧ ∃ rest, nm = it.name ++ rest ∧ rest.head? ≠ some z) ∨
    nm = dom ++ SEPARATOR :: it.name

/-- The first byte of a list -/
def firstCount : List Item → Byte
  | [] => 0
  | it :: _ => it.count

/-- Some item is found. -/
def Found (dom nm : List Byte) : List Item → Prop
  | [] => False
  | it :: its => Finds dom nm it (firstCount its) ∨ Found dom nm its

variable {m : Mem} {n p q : ℕ} {xs ys dom nm : List Byte} {it : Item} {its : List Item} {z : Byte}

theorem alist_eq (its : List Item) : ∃ rest, alist its = firstCount its :: rest := by
  cases its with
  | nil => exact ⟨[], rfl⟩
  | cons it its => exact ⟨it.name ++ alist its, rfl⟩

theorem count_toNat (it : Item) : it.count.toNat = it.name.length := by
  have hshort := it.short
  rw [Item.count, BitVec.toNat_ofNat]
  exact Nat.mod_eq_of_lt (by omega)

theorem count_pos (it : Item) : 0 < it.count.toInt := by
  have hshort := it.short
  have hcount := count_toNat it
  rw [BitVec.toInt_eq_toNat_of_lt (by omega), hcount]
  omega

/-! ## The scan -/

/-- The scan stops behind the item exactly if the rest of the string does not begin with the byte behind the item. -/
theorem scan_spec (h : Holds m p (xs ++ [0])) (hxs : ∀ x ∈ xs, x ≠ 0) (hn : xs.length < n) (q : ℕ) :
    ∃ k, scan m n p q = some (p + k, q + k) ∧ (m (p + k) = 0 ↔ k = xs.length) ∧
      (∀ j < k, m (q + j) = m (p + j)) ∧
      ∀ ys z, Holds m q (ys ++ [z]) → (k = ys.length ↔ ∃ rest, xs = ys ++ rest ∧ rest.head? ≠ some z) := by
  induction xs generalizing p q n with
  | nil =>
    cases n with
    | zero => exact absurd hn (Nat.not_lt_zero _)
    | succ n =>
      refine ⟨0, by rw [scan, if_pos h.1]; rfl, iff_of_true h.1 rfl, nofun, fun ys z _ =>
        ⟨fun hy => ⟨[], ?_, nofun⟩, ?_⟩⟩
      · rw [length_eq_zero_iff.mp hy.symm]
        rfl
      · rintro ⟨rest, hrest, -⟩
        rw [(append_eq_nil_iff.mp hrest.symm).1]
        rfl
  | cons x xs ih =>
    cases n with
    | zero => exact absurd hn (Nat.not_lt_zero _)
    | succ n =>
      have hx : m p ≠ 0 := by
        rw [h.1]
        exact hxs x mem_cons_self
      by_cases heq : m p = m q
      · obtain ⟨k, hrun, hend, hsame, hitem⟩ := ih h.2 (fun y hy => hxs y (mem_cons_of_mem x hy))
          (Nat.lt_of_succ_lt_succ hn) (q + 1)
        have hp : p + 1 + k = p + (k + 1) := by omega
        have hq : q + 1 + k = q + (k + 1) := by omega
        rw [hp, hq] at hrun
        rw [hp] at hend
        refine ⟨k + 1, by rw [scan, if_neg hx, if_neg fun hne => hne heq, hrun], ?_, fun j hj => ?_,
          fun ys z hys => ?_⟩
        · rw [hend, length_cons]
          omega
        · cases j with
          | zero => exact heq.symm
          | succ j =>
            have hj' := hsame j (Nat.lt_of_succ_lt_succ hj)
            rwa [Nat.add_assoc, Nat.add_assoc, Nat.add_comm 1] at hj'
        · cases ys with
          | nil =>
            refine iff_of_false (Nat.succ_ne_zero k) fun ⟨rest, hrest, hz⟩ => hz ?_
            rw [nil_append] at hrest
            rw [← hrest, List.head?_cons, ← h.1, heq, hys.1]
          | cons y ys =>
            have hy : y = x := by rw [← hys.1, ← heq, h.1]
            simp [hitem ys z hys.2, hy]
      · refine ⟨0, by rw [scan, if_neg hx, if_pos heq]; rfl, iff_of_false hx nofun, nofun, fun ys z hys => ?_⟩
        rw [h.1] at heq
        cases ys with
        | nil =>
          refine iff_of_true rfl ⟨x :: xs, rfl, fun hz => heq ?_⟩
          rw [hys.1]
          exact Option.some.inj hz
        | cons y ys =>
          refine iff_of_false nofun fun ⟨rest, hrest, _⟩ => heq ?_
          rw [hys.1]
          exact (List.cons.inj hrest).1

/-- A string that begins with other bytes -/
theorem holds_prefix (h : Holds m p (xs ++ [0])) (h' : Holds m p ys) (hys : ∀ y ∈ ys, y ≠ 0) : ys <+: xs := by
  induction ys generalizing p xs with
  | nil => exact nil_prefix
  | cons y ys ih =>
    cases xs with
    | nil => exact absurd (h'.1.symm.trans h.1) (hys y mem_cons_self)
    | cons x xs =>
      rw [← h'.1, h.1, cons_prefix_cons]
      exact ⟨rfl, ih h.2 h'.2 fun z hz => hys z (mem_cons_of_mem y hz)⟩

theorem holds_last (h : Holds m p (xs ++ ys)) (hpos : 0 < xs.length) (z : Byte) :
    m (p + xs.length - 1) = z ↔ xs.getLast? = some z := by
  rcases eq_nil_or_concat xs with rfl | ⟨xs, x, rfl⟩
  · exact absurd hpos (Nat.lt_irrefl 0)
  · rw [concat_eq_append, append_assoc, holds_append] at h
    rw [concat_eq_append, length_append, length_singleton, List.getLast?_concat, Option.some_inj, ← h.2.1]
    rfl

/-- `npart` is right for the name `nm`. -/
def IsPart (m : Mem) (dom nm : List Byte) : Option ℕ → Prop
  | none => ∀ xs, nm ≠ dom ++ SEPARATOR :: xs
  | some part => ∃ xs, nm = dom ++ SEPARATOR :: xs ∧ Holds m part (xs ++ [0])

theorem namepart_spec {domain name : ℕ} (hdom : Holds m domain (dom ++ [0])) (hd : ∀ x ∈ dom, x ≠ 0)
    (hnm : Holds m name (nm ++ [0])) (hn : dom.length < n) :
    ∃ npart, namepart m n domain name = some npart ∧ IsPart m dom nm npart := by
  obtain ⟨k, hrun, hend, hsame, hitem⟩ := scan_spec hdom hd hn name
  by_cases hsep : m (name + k) = SEPARATOR ∧ m (domain + k) = 0
  · refine ⟨some (name + k + 1), by rw [namepart, hrun]; exact congrArg some (if_pos hsep), ?_⟩
    have hk := hend.mp hsep.2
    have hlocal : Holds m name (dom ++ [SEPARATOR]) := by
      refine holds_append.mpr ⟨(holds_append.mp hdom).1.shift fun j hj => hsame j (by omega), ?_, trivial⟩
      rw [← hk]
      exact hsep.1
    have hne : ∀ y ∈ dom ++ [SEPARATOR], y ≠ 0 := by
      intro y hy
      rcases mem_append.mp hy with hy | hy
      · exact hd y hy
      · rw [mem_singleton.mp hy]
        decide
    obtain ⟨xs, hxs⟩ := holds_prefix hnm hlocal hne
    rw [append_assoc, singleton_append] at hxs
    refine ⟨xs, hxs.symm, ?_⟩
    rw [← hxs, append_assoc, holds_append, ← hk] at hnm
    exact hnm.2.2
  · refine ⟨none, by rw [namepart, hrun]; exact congrArg some (if_neg hsep), fun xs hxs => hsep ?_⟩
    rw [hxs, append_assoc, holds_append] at hnm
    have hlocal : Holds m name (dom ++ [SEPARATOR]) := holds_append.mpr ⟨hnm.1, hnm.2.1, trivial⟩
    have hk : k = dom.length := (hitem dom SEPARATOR hlocal).mpr ⟨[], (append_nil dom).symm, nofun⟩
    refine ⟨?_, hend.mpr hk⟩
    rw [hk]
    exact hnm.2.1

/-! ## The items -/

/-- The test for the whole name and for a domain -/
theorem full_spec {name sp : ℕ} (hnm : Holds m name (nm ++ [0])) (hd : ∀ x ∈ nm, x ≠ 0) (hn : nm.length < n)
    (hit : Holds m sp (it.name ++ [z])) :
    ∃ np lp, scan m n name sp = some (np, lp) ∧
      ((m np = 0 ∧ sp + it.name.length = lp) ∨
          (m (np - 1) = SEPARATOR ∧ lp = sp + it.name.length ∧ m (lp - 1) = SEPARATOR) ↔
        nm = it.name ∨
          (it.name.getLast? = some SEPARATOR ∧ ∃ rest, nm = it.name ++ rest ∧ rest.head? ≠ some z)) := by
  obtain ⟨k, hrun, hend, -, hitem⟩ := scan_spec hnm hd hn sp
  refine ⟨name + k, sp + k, hrun, ?_⟩
  have hpos := it.short.1
  have hlp := holds_last hit hpos SEPARATOR
  have hk := hitem it.name z hit
  constructor
  · rintro (⟨hz, hlen⟩ | ⟨-, hlen, hsep⟩)
    · have hklen : k = it.name.length := by omega
      obtain ⟨rest, rfl, -⟩ := hk.mp hklen
      left
      have hrest := hend.mp hz
      rw [length_append] at hrest
      rw [length_eq_zero_iff.mp (by omega : rest.length = 0), append_nil]
    · have hklen : k = it.name.length := by omega
      right
      refine ⟨hlp.mp ?_, hk.mp hklen⟩
      rwa [hklen] at hsep
  · rintro (rfl | ⟨hlast, hrest⟩)
    · have hklen : k = it.name.length := hk.mpr ⟨[], (append_nil _).symm, nofun⟩
      exact .inl ⟨hend.mpr hklen, by rw [hklen]⟩
    · have hklen := hk.mpr hrest
      obtain ⟨rest, rfl, -⟩ := hrest
      rw [append_assoc] at hnm
      rw [hklen]
      exact .inr ⟨(holds_last hnm hpos SEPARATOR).mpr hlast, rfl, hlp.mpr hlast⟩

/-- The test for a name in the domain of this machine -/
theorem part_spec {part sp : ℕ} (hxs : Holds m part (xs ++ [0])) (hd : ∀ x ∈ xs, x ≠ 0) (hn : xs.length < n)
    (hit : Holds m sp (it.name ++ [z])) :
    ∃ np lp, scan m n part sp = some (np, lp) ∧ ((m np = 0 ∧ lp = sp + it.name.length) ↔ xs = it.name) := by
  obtain ⟨k, hrun, hend, -, hitem⟩ := scan_spec hxs hd hn sp
  refine ⟨part + k, sp + k, hrun, ?_⟩
  have hk := hitem it.name z hit
  constructor
  · rintro ⟨hz, hlen⟩
    obtain ⟨rest, rfl, -⟩ := hk.mp (by omega)
    have hrest := hend.mp hz
    rw [length_append] at hrest
    rw [length_eq_zero_iff.mp (by omega : rest.length = 0), append_nil]
  · rintro rfl
    have hklen : k = it.name.length := hk.mpr ⟨[], (append_nil _).symm, nofun⟩
    exact ⟨hend.mpr hklen, by rw [hklen]⟩

theorem checkLoop_spec {name lp fuel : ℕ} {npart : Option ℕ} (hnm : Holds m name (nm ++ [0]))
    (hd : ∀ x ∈ nm, x ≠ 0) (hn : nm.length < n) (hpart : IsPart m dom nm npart) (h : Holds m lp (alist its))
    (hfuel : its.length < fuel) :
    ∃ b, checkLoop m n name npart fuel lp = some b ∧ (b = true ↔ Found dom nm its) := by
  induction its generalizing lp fuel with
  | nil =>
    cases fuel with
    | zero => exact absurd hfuel (Nat.not_lt_zero _)
    | succ fuel =>
      refine ⟨false, ?_, by simp [Found]⟩
      rw [checkLoop, h.1]
      rfl
  | cons it its ih =>
    cases fuel with
    | zero => exact absurd hfuel (Nat.not_lt_zero _)
    | succ fuel =>
      obtain ⟨rest, hrest⟩ := alist_eq its
      obtain ⟨hcount, hbody⟩ := h
      obtain ⟨hname, htail⟩ := holds_append.mp hbody
      have hit : Holds m (lp + 1) (it.name ++ [firstCount its]) := by
        refine holds_append.mpr ⟨hname, ?_, trivial⟩
        rw [hrest] at htail
        exact htail.1
      have hnlp : lp + (m lp).toNat + 1 = lp + 1 + it.name.length := by
        rw [hcount, count_toNat]
        omega
      have hpos : 0 < (m lp).toInt := by
        rw [hcount]
        exact count_pos it
      obtain ⟨b, hloop, hb⟩ := ih htail (Nat.lt_of_succ_lt_succ hfuel)
      obtain ⟨np, lp', hscan, hfull⟩ := full_spec hnm hd hn hit
      rw [checkLoop, if_pos hpos]
      dsimp only
      rw [hscan, hnlp]
      dsimp only [Option.bind_eq_bind, Option.bind_some]
      split
      next hyes =>
        refine ⟨true, rfl, iff_of_true rfl (.inl ?_)⟩
        exact (hfull.mp (hyes.imp_left fun h => ⟨h.1, h.2⟩)).imp_right .inl
      next hno =>
        have hfull' := mt hfull.mpr hno
        cases npart with
        | none =>
          refine ⟨b, hloop, hb.trans ⟨.inr, fun h => h.resolve_left fun hf => ?_⟩⟩
          rcases hf with hf | hf | hf
          · exact hfull' (.inl hf)
          · exact hfull' (.inr hf)
          · exact hpart it.name hf
        | some part =>
          obtain ⟨xs, hxs, hstr⟩ := hpart
          have hd' : ∀ x ∈ xs, x ≠ 0 := fun x hx =>
            hd x (by rw [hxs]; exact mem_append_right dom (mem_cons_of_mem _ hx))
          have hn' : xs.length < n := by
            rw [hxs, length_append, length_cons] at hn
            omega
          have hname : nm = dom ++ SEPARATOR :: it.name ↔ xs = it.name := by
            rw [hxs, append_cancel_left_eq, cons_inj_right]
          obtain ⟨np', lp', hscan', hlocal⟩ := part_spec hstr hd' hn' hit
          dsimp only
          rw [hscan']
          dsimp only [Option.bind_some]
          split
          next hyes => exact ⟨true, rfl, iff_of_true rfl (.inl (.inr (.inr (hname.mpr (hlocal.mp hyes)))))⟩
          next hout =>
            refine ⟨b, hloop, hb.trans ⟨.inr, fun h => h.resolve_left fun hf => ?_⟩⟩
            rcases hf with hf | hf | hf
            · exact hfull' (.inl hf)
            · exact hfull' (.inr hf)
            · exact hout (hlocal.mpr (hname.mp hf))

/-- A memory with this machine's domain, the name of a client and a list; the loops can go over each of them. -/
structure Given (m : Mem) (n domain ref name : ℕ) (dom nm : List Byte) (its : List Item) : Prop where
  domain : Holds m domain (dom ++ [0])
  name : Holds m name (nm ++ [0])
  list : Holds m ref (alist its)
  strings : (∀ x ∈ dom, x ≠ 0) ∧ ∀ x ∈ nm, x ≠ 0
  turns : dom.length < n ∧ nm.length < n ∧ its.length < n

theorem Given.found {domain ref name : ℕ} (h : Given m n domain ref name dom nm its) :
    ∃ b, checkalist m n domain ref name = some b ∧ (b = true ↔ Found dom nm its) := by
  obtain ⟨hdom, hnm, hlist, ⟨hd, hd'⟩, hn, hn', hn''⟩ := h
  obtain ⟨npart, hrun, hpart⟩ := namepart_spec hdom hd hnm hn
  obtain ⟨b, hloop, hb⟩ := checkLoop_spec hnm hd' hn' hpart hlist hn''
  exact ⟨b, by rw [checkalist, hrun]; exact hloop, hb⟩

theorem Finds.admits (h : Finds dom nm it z) : Admits dom nm it := by
  rcases h with h | ⟨hlast, rest, hrest, -⟩ | h
  · exact .inl h
  · exact .inr (.inl ⟨hlast, rest, hrest.symm⟩)
  · exact .inr (.inr h)

/-- What is found is let in. -/
theorem Found.admits (h : Found dom nm its) : ∃ it ∈ its, Admits dom nm it := by
  induction its with
  | nil => exact h.elim
  | cons it its ih =>
    rcases h with h | h
    · exact ⟨it, mem_cons_self, h.admits⟩
    · obtain ⟨i, hi, hadmits⟩ := ih h
      exact ⟨i, mem_cons_of_mem it hi, hadmits⟩

/-- `checkalist` follows the rule for a name exactly if the name is not let in, or some item that lets it in is
found: it is the name or the local part of it, or the name goes on behind it with another byte than the count of the
next item. -/
theorem checkalist_rule_iff {domain ref name : ℕ} (h : Given m n domain ref name dom nm its) :
    (∃ b, checkalist m n domain ref name = some b ∧ (b = true ↔ ∃ it ∈ its, Admits dom nm it)) ↔
      ((∃ it ∈ its, Admits dom nm it) → Found dom nm its) := by
  obtain ⟨b, hrun, hb⟩ := h.found
  constructor
  · rintro ⟨b', hrun', hb'⟩ hadmits
    rw [hrun] at hrun'
    rw [← hb, Option.some.inj hrun']
    exact hb'.mpr hadmits
  · intro hfound
    exact ⟨b, hrun, hb.trans ⟨Found.admits, hfound⟩⟩

/-! ## A list with the domain `a.b.` -/

/-- A name and a list one behind the other; this machine has no domain -/
def laid (nm : List Byte) (its : List Item) : Mem := poke 0 (0 :: nm ++ 0 :: alist its) fun _ => 0

theorem laid_given (hnm : ∀ x ∈ nm, x ≠ 0) (hn : nm.length < n) (hn' : its.length < n) :
    Given (laid nm its) n 0 (nm.length + 2) 1 [] nm its := by
  obtain ⟨hdom, hrest⟩ := holds_poke (fun _ => 0) 0 (0 :: nm ++ 0 :: alist its)
  obtain ⟨hname, hz, hlist⟩ := holds_append.mp hrest
  refine ⟨⟨hdom, trivial⟩, holds_append.mpr ⟨hname, hz, trivial⟩, ?_, ⟨nofun, hnm⟩, Nat.zero_lt_of_lt hn, hn, hn'⟩
  rwa [show 0 + 1 + nm.length + 1 = nm.length + 2 by omega] at hlist

/-- The item `a.b.` -/
def domainItem : Item := ⟨[97, 46, 98, 46], by decide, by decide⟩

/-- An item of 99 letters; 99 is the letter `c`. -/
def longItem : Item := ⟨List.replicate 99 120, by decide +kernel, by decide +kernel⟩

/-- `a.b.c` -/
def clientName : List Byte := [97, 46, 98, 46, 99]

theorem domainItem_admits : Admits [] clientName domainItem :=
  .inr (.inl ⟨rfl, [99], rfl⟩)

theorem checkalist_rule_alone : ∃ b, checkalist (laid clientName [domainItem]) 10 0 7 1 = some b ∧
    (b = true ↔ ∃ it ∈ [domainItem], Admits [] clientName it) :=
  (checkalist_rule_iff (laid_given (by decide) (by decide) (by decide))).mpr fun _ =>
    .inl (.inr (.inl ⟨rfl, [99], rfl, by decide⟩))

theorem longItem_hides : ¬Found [] clientName [domainItem, longItem] := by
  rintro ((h | ⟨-, rest, hrest, hz⟩ | h) | (h | ⟨hlast, -⟩ | h) | h)
  · exact absurd h (by decide)
  · have hcut : [97, 46, 98, 46] ++ [99] = [97, 46, 98, 46] ++ rest := hrest
    rw [← append_cancel_left hcut] at hz
    exact hz rfl
  · exact absurd h (by decide)
  · exact absurd (congrArg List.length h) (by decide +kernel)
  · exact absurd hlast (by decide +kernel)
  · exact absurd (congrArg List.length h) (by decide +kernel)
  · exact h

/-- The client `a.b.c` is not let in by `a.b.` when an item of 99 letters comes next. -/
theorem checkalist_breaks_rule : ¬∀ m n domain ref name dom nm its, Given m n domain ref name dom nm its →
    ∃ b, checkalist m n domain ref name = some b ∧ (b = true ↔ ∃ it ∈ its, Admits dom nm it) := by
  intro h
  have hgiven : Given (laid clientName [domainItem, longItem]) 10 0 7 1 [] clientName [domainItem, longItem] :=
    laid_given (by decide) (by decide) (by decide)
  obtain ⟨b, hrun, hb⟩ := h _ _ _ _ _ _ _ _ hgiven
  obtain ⟨b', hrun', hb'⟩ := hgiven.found
  rw [hrun] at hrun'
  have hyes : b = true := hb.mpr ⟨domainItem, mem_cons_self, domainItem_admits⟩
  exact longItem_hides (hb'.mp (by rw [← Option.some.inj hrun', hyes]))

end Svr3.AuthList
