import Svr3.Fs.S5Fifo
import Mathlib.Data.List.Infix

/-!
# Runs of readers and writers of a pipe

The bytes that readers get are those that writers stored, in order; a write that fits into the pipe is not
mixed with others.
-/

namespace Svr3.S5.Fifo

open Function List

/-- The pcs at which a process holds the inode -/
def Pc.inside : Pc → Bool
  | .floop | .writing _ _ | .written _ | .empty | .reading | .taken => true
  | .idle | .fwcnt _ | .frcnt _ => false

/-- The pcs of a process that has a write in progress -/
def Pc.writer : Pc → Bool
  | .floop | .writing _ _ | .written _ | .fwcnt _ => true
  | .idle | .empty | .reading | .taken | .frcnt _ => false

/-- The bytes that were stored for write `k` -/
def Sys.stored (s : Sys) (k : ℕ) : List (ℕ × UInt8) := s.accepted.filter (·.1 = k)

/-- Where the bytes of the pipe begin and end, for the process that holds the inode -/
def Proc.ptrs (s : Sys) (q : Proc) : Pc → ℕ × ℕ
  | .reading | .taken => (q.u_offset, s.fwptr)
  | .writing _ _ | .written _ => (s.frptr, q.u_offset)
  | .floop | .empty | .idle | .fwcnt _ | .frcnt _ => (s.frptr, s.fwptr)

def Sys.ptrs (s : Sys) : ℕ × ℕ :=
  match s.lock with
  | none => (s.frptr, s.fwptr)
  | some p => (s.procs p).ptrs s (s.procs p).pc

theorem Sys.procs_put (s : Sys) (p : ℕ) (q : Proc) : (s.put p q).procs p = q :=
  update_self _ _ _

theorem Sys.pc_finish (s : Sys) (p : ℕ) (q : Proc) : ((s.finish p q).procs p).pc = .idle :=
  congrArg Proc.pc (Sys.procs_put s p { q with pc := .idle })

theorem Sys.ptrs_none {s : Sys} (h : s.lock = none) : s.ptrs = (s.frptr, s.fwptr) := by
  rw [Sys.ptrs, h]

theorem Sys.ptrs_some {s : Sys} {p : ℕ} {q : Proc} {pc : Pc} (h : s.lock = some p)
    (hq : s.procs p = q) (hpc : q.pc = pc) : s.ptrs = q.ptrs s pc := by
  rw [Sys.ptrs, h]
  dsimp only
  rw [hq, hpc]

/-- The bytes of the pipe are those that were stored and not yet got. -/
structure Ring (s : Sys) (r w : ℕ) : Prop where
  lt : r < PIPSIZ
  end_eq : w = (r + s.i_size) % PIPSIZ
  size : s.i_size ≤ PIPSIZ
  bytes : s.accepted.map Prod.snd = s.delivered ++ window s.data PIPSIZ r s.i_size

/-- Write `k`, of which the first `m` bytes are stored and `left` are not -/
structure Writer (s : Sys) (k m left : ℕ) : Prop where
  lt : k < s.calls
  stored : (s.stored k).map Prod.snd = (List.range m).map (s.writes k).core
  count : m + left = (s.writes k).count
  result : s.result k = none

theorem Writer.frame {s s' : Sys} {k m left : ℕ} (h : Writer s k m left) (hcalls : s.calls ≤ s'.calls)
    (hwrites : ∀ k < s.calls, s'.writes k = s.writes k) (haccepted : s'.accepted = s.accepted)
    (hresult : s'.result = s.result) : Writer s' k m left := by
  have hstored : s'.stored k = s.stored k := by rw [Sys.stored, haccepted, Sys.stored]
  refine ⟨Nat.lt_of_lt_of_le h.lt hcalls, ?_, ?_, ?_⟩
  · rw [hstored, hwrites k h.lt]
    exact h.stored
  · rw [hwrites k h.lt]
    exact h.count
  · rw [hresult]
    exact h.result

/-- A write that is small is stored as a whole. -/
def Sys.small (s : Sys) (k : ℕ) : Prop := (s.writes k).count ≤ PIPSIZ

/-- What holds of a process at a pc -/
def AtPc (s : Sys) (q : Proc) : Pc → Prop
  | .floop | .fwcnt _ => Writer s q.call q.u_base q.u_count ∧ q.u_error = none ∧
      (s.small q.call → q.u_base = 0)
  | .writing usave _ => Writer s q.call q.u_base (q.u_count + usave) ∧ q.u_error = none ∧
      q.u_count + s.i_size ≤ PIPSIZ ∧ (s.small q.call → usave = 0 ∧ s.stored q.call <:+ s.accepted)
  | .written usave => Writer s q.call q.u_base (q.u_count + usave) ∧
      (q.u_error = none → usave = 0 ∨ q.u_count = 0) ∧
      (s.small q.call → usave = 0 ∧ s.stored q.call <:+ s.accepted)
  | .idle | .empty | .reading | .taken | .frcnt _ => True

def At (s : Sys) (q : Proc) : Prop := AtPc s q q.pc

/-- What was stored for write `k` are its first bytes, as many as its caller was told. -/
def Told (s : Sys) (k : ℕ) : Prop :=
  (s.small k → s.stored k <:+: s.accepted) ∧
    ∃ m ≤ (s.writes k).count, (s.stored k).map Prod.snd = (List.range m).map (s.writes k).core ∧
      ∀ r, s.result k = some r → r = m

structure Inv (s : Sys) : Prop where
  lock : ∀ p, (s.procs p).pc.inside = true ↔ s.lock = some p
  ring : Ring s s.ptrs.1 s.ptrs.2
  at_pc : ∀ p, At s (s.procs p)
  apart : ∀ p q, p ≠ q → (s.procs p).pc.writer = true → (s.procs q).pc.writer = true →
    (s.procs p).call ≠ (s.procs q).call
  told : ∀ k, Told s k
  fresh : ∀ k, s.calls ≤ k → s.stored k = [] ∧ s.result k = none

/-- A process that at most was woken up -/
structure Same (q q' : Proc) : Prop where
  call : q'.call = q.call
  inside : q'.pc.inside = q.pc.inside
  writer : q'.pc.writer = q.pc.writer
  at_pc : ∀ s, At s q → At s q'

namespace Same

theorem refl (q : Proc) : Same q q := ⟨rfl, rfl, rfl, fun _ h => h⟩

theorem trans {q q' q'' : Proc} (h : Same q q') (h' : Same q' q'') : Same q q'' :=
  ⟨h'.call.trans h.call, h'.inside.trans h.inside, h'.writer.trans h.writer,
    fun s hq => h'.at_pc s (h.at_pc s hq)⟩

theorem wakeFrcnt (q : Proc) : Same q q.wakeFrcnt := by
  rw [Proc.wakeFrcnt]
  split
  next hpc => exact ⟨rfl, hpc ▸ rfl, hpc ▸ rfl, fun _ _ => trivial⟩
  next => exact refl q

theorem wakeFwcnt (q : Proc) : Same q q.wakeFwcnt := by
  rw [Proc.wakeFwcnt]
  split
  next hpc =>
    refine ⟨rfl, hpc ▸ rfl, hpc ▸ rfl, fun s hq => ?_⟩
    rw [At, hpc] at hq
    exact hq
  next => exact refl q

end Same

section

variable {s s' : Sys} {p : ℕ} {q q' : Proc}

/-- A process that does not hold the inode notices nothing of other writes. -/
theorem At.frame (h : At s q) (hq : q.pc.inside = false) (hcalls : s.calls ≤ s'.calls)
    (hsame : q.pc.writer = true → s'.stored q.call = s.stored q.call ∧
      s'.writes q.call = s.writes q.call ∧ s'.result q.call = s.result q.call) : At s' q := by
  rw [At] at h ⊢
  cases hpc : q.pc with
  | fwcnt awake =>
    rw [hpc] at h hsame
    obtain ⟨hstored, hwrites, hresult⟩ := hsame rfl
    refine ⟨⟨Nat.lt_of_lt_of_le h.1.lt hcalls, ?_, ?_, ?_⟩, ?_⟩
    · rw [hstored, hwrites]
      exact h.1.stored
    · rw [hwrites]
      exact h.1.count
    · rw [hresult]
      exact h.1.result
    · rw [Sys.small, hwrites]
      exact h.2
  | idle => exact trivial
  | frcnt awake => exact trivial
  | floop | writing _ _ | written _ | empty | reading | taken =>
    rw [hpc] at hq
    exact absurd hq nofun

theorem Told.frame {k : ℕ} (h : Told s k) (hstored : s'.stored k = s.stored k)
    (hwrites : s'.writes k = s.writes k) (hresult : s'.result k = s.result k)
    (haccepted : s.accepted <+: s'.accepted) : Told s' k := by
  refine ⟨fun hsmall => ?_, ?_⟩
  · rw [Sys.small, hwrites] at hsmall
    rw [hstored]
    exact (h.1 hsmall).trans haccepted.isInfix
  · rw [hstored, hwrites, hresult]
    exact h.2

theorem Inv.call_lt (h : Inv s) (hw : (s.procs p).pc.writer = true) : (s.procs p).call < s.calls := by
  have hq := h.at_pc p
  rw [At] at hq
  cases hpc : (s.procs p).pc with
  | floop | fwcnt _ | writing _ _ | written _ =>
    rw [hpc] at hq
    exact hq.1.lt
  | idle | empty | reading | taken | frcnt _ =>
    rw [hpc] at hw
    exact absurd hw nofun

/-- A step of the process `p` that holds the inode -/
theorem Inv.step (h : Inv s) (hp : s.lock = some p)
    (hlock : s'.lock = if (s'.procs p).pc.inside then some p else none)
    (hothers : ∀ r, r ≠ p → Same (s.procs r) (s'.procs r))
    (hcall : (s'.procs p).pc.writer = true →
      (s.procs p).pc.writer = true ∧ (s'.procs p).call = (s.procs p).call)
    (hring : Ring s' s'.ptrs.1 s'.ptrs.2) (hat : At s' (s'.procs p)) (hcalls : s'.calls = s.calls)
    (hwrites : s'.writes = s.writes) (haccepted : s.accepted <+: s'.accepted)
    (hsame : ∀ k, ((s.procs p).pc.writer = true → k ≠ (s.procs p).call) →
      s'.stored k = s.stored k ∧ s'.result k = s.result k)
    (htold : (s.procs p).pc.writer = true → Told s' (s.procs p).call) : Inv s' := by
  have hinside {r : ℕ} (hr : r ≠ p) : (s'.procs r).pc.inside = false := by
    rw [(hothers r hr).inside]
    by_contra hc
    have heq := (h.lock r).mp (eq_true_of_ne_false hc)
    rw [hp] at heq
    exact hr (Option.some.inj heq).symm
  refine ⟨fun r => ?_, hring, fun r => ?_, fun a b hab ha hb => ?_, fun k => ?_, fun k hk => ?_⟩
  · by_cases hr : r = p
    · rw [hr, hlock]
      cases (s'.procs p).pc.inside with
      | true => exact ⟨fun _ => rfl, fun _ => rfl⟩
      | false => exact ⟨nofun, nofun⟩
    · rw [hinside hr, hlock]
      refine ⟨nofun, fun heq => ?_⟩
      split at heq
      · exact absurd (Option.some.inj heq).symm hr
      · exact absurd heq nofun
  · by_cases hr : r = p
    · rw [hr]
      exact hat
    · have hr' := hothers r hr
      apply ((hr'.at_pc s) (h.at_pc r)).frame (hinside hr) (Nat.le_of_eq hcalls.symm)
      intro hw
      rw [hr'.writer] at hw
      rw [hr'.call, hwrites]
      obtain ⟨hst, hre⟩ := hsame (s.procs r).call fun hpw => h.apart r p hr hw hpw
      exact ⟨hst, rfl, hre⟩
  · have hback {r : ℕ} (hr : (s'.procs r).pc.writer = true) : (s.procs r).pc.writer = true ∧
        (s'.procs r).call = (s.procs r).call := by
      by_cases hrp : r = p
      · rw [hrp] at hr ⊢
        exact hcall hr
      · rw [(hothers r hrp).writer] at hr
        exact ⟨hr, (hothers r hrp).call⟩
    rw [(hback ha).2, (hback hb).2]
    exact h.apart a b hab (hback ha).1 (hback hb).1
  · by_cases hk : (s.procs p).pc.writer = true ∧ k = (s.procs p).call
    · rw [hk.2]
      exact htold hk.1
    · obtain ⟨hst, hre⟩ := hsame k fun hw heq => hk ⟨hw, heq⟩
      exact (h.told k).frame hst (congrFun hwrites k) hre haccepted
  · rw [hcalls] at hk
    obtain ⟨hst, hre⟩ := hsame k fun hw heq => absurd (h.call_lt hw) (heq ▸ Nat.not_lt.mpr hk)
    rw [hst, hre]
    exact h.fresh k hk

/-- A step of `p` that stores nothing, and returns from no write -/
theorem Inv.quiet (h : Inv s) (hp : s.lock = some p)
    (hlock : s'.lock = if (s'.procs p).pc.inside then some p else none)
    (hothers : ∀ r, r ≠ p → Same (s.procs r) (s'.procs r))
    (hcall : (s'.procs p).pc.writer = true →
      (s.procs p).pc.writer = true ∧ (s'.procs p).call = (s.procs p).call)
    (hring : Ring s' s'.ptrs.1 s'.ptrs.2) (hat : At s' (s'.procs p)) (hcalls : s'.calls = s.calls)
    (hwrites : s'.writes = s.writes) (haccepted : s'.accepted = s.accepted)
    (hresult : s'.result = s.result) : Inv s' := by
  have hstored (k : ℕ) : s'.stored k = s.stored k := by rw [Sys.stored, haccepted, Sys.stored]
  have hprefix : s.accepted <+: s'.accepted := by rw [haccepted]
  apply h.step hp hlock hothers hcall hring hat hcalls hwrites hprefix
  · intro k _
    exact ⟨hstored k, congrFun hresult k⟩
  · intro _
    exact (h.told _).frame (hstored _) (congrFun hwrites _) (congrFun hresult _) hprefix

/-- A write that returns what it has stored, or an error -/
theorem Inv.returns (h : Inv s) (hp : s.lock = some p) (hw : (s.procs p).pc.writer = true)
    (hlock : s'.lock = none) (hpc : (s'.procs p).pc = .idle)
    (hothers : ∀ r, r ≠ p → Same (s.procs r) (s'.procs r)) (hring : Ring s' s'.frptr s'.fwptr)
    (hcalls : s'.calls = s.calls) (hwrites : s'.writes = s.writes)
    (haccepted : s'.accepted = s.accepted) {m left : ℕ} (hm : Writer s (s.procs p).call m left)
    (hresult : s'.result = s.result ∨ s'.result = update s.result (s.procs p).call (some m)) :
    Inv s' := by
  have hstored (k : ℕ) : s'.stored k = s.stored k := by rw [Sys.stored, haccepted, Sys.stored]
  have hprefix : s.accepted <+: s'.accepted := by rw [haccepted]
  have hptrs := Sys.ptrs_none hlock
  apply h.step hp _ hothers _ _ _ hcalls hwrites hprefix
  · intro k hk
    refine ⟨hstored k, ?_⟩
    rcases hresult with hr | hr
    · rw [hr]
    · rw [hr, update_of_ne (hk hw)]
  · intro _
    have htold := h.told (s.procs p).call
    refine ⟨fun hsmall => ?_, m, ?_, ?_, fun r hr => ?_⟩
    · rw [Sys.small, hwrites] at hsmall
      rw [hstored, haccepted]
      exact htold.1 hsmall
    · rw [hwrites, ← hm.count]
      exact Nat.le_add_right m left
    · rw [hstored, hwrites]
      exact hm.stored
    · rcases hresult with hres | hres
      · rw [hres, hm.result] at hr
        exact absurd hr nofun
      · rw [hres, update_self] at hr
        exact (Option.some.inj hr).symm
  · rw [hpc]
    exact hlock
  · rw [hpc]
    exact nofun
  · rw [hptrs]
    exact hring
  · rw [At, hpc]
    exact trivial

/-- What the holder of the inode leaves to the others -/
theorem same_update {q : Proc} (r : ℕ) (hr : r ≠ p) :
    Same (s.procs r) (update s.procs p q r) := by
  rw [update_of_ne hr]
  exact .refl _

theorem Inv.at_eq (h : Inv s) {pc : Pc} (hpc : (s.procs p).pc = pc) : AtPc s (s.procs p) pc := by
  have hat := h.at_pc p
  rw [At, hpc] at hat
  exact hat

theorem Inv.ring_eq (h : Inv s) {r w : ℕ} (hptrs : s.ptrs = (r, w)) : Ring s r w := by
  have hring := h.ring
  rw [hptrs] at hring
  exact hring

/-- At the top of a write a process comes to its first block, sleeps, or returns. -/
theorem floop_inv (h : Inv s) (hp : s.lock = some p) (hpc : (s.procs p).pc = .floop)
    (hwrap : (s.procs p).u_count + s.i_size < 2 ^ 32) : Inv (floop p (s.procs p) s) := by
  obtain ⟨hwriter, hnone, hsmall⟩ := h.at_eq hpc
  have hring := h.ring_eq (Sys.ptrs_some hp rfl hpc)
  have hw : (s.procs p).pc.writer = true := by rw [hpc]; rfl
  have hsuffix (hs : s.small (s.procs p).call) : s.stored (s.procs p).call <:+ s.accepted := by
    have hnil := hwriter.stored
    rw [hsmall hs, range_zero, map_nil, map_eq_nil_iff] at hnil
    rw [hnil]
    exact nil_suffix
  have hbroken : Inv (s.finish p { s.procs p with u_error := some .EPIPE }) :=
    h.returns hp hw rfl (s.pc_finish p _) same_update
      ⟨hring.lt, hring.end_eq, hring.size, hring.bytes⟩ rfl rfl rfl hwriter (.inl rfl)
  -- the process comes to the first block with `c` bytes for now
  have hstart (c usave : ℕ) (hc : c + s.i_size ≤ PIPSIZ) (hsum : c + usave = (s.procs p).u_count)
      (hsave : s.small (s.procs p).call → usave = 0) :
      Inv (s.put p { s.procs p with pc := .writing usave 0, u_count := c, u_offset := s.fwptr }) := by
    obtain ⟨q, hqdef⟩ : ∃ q, q = { s.procs p with
      pc := .writing usave 0, u_count := c, u_offset := s.fwptr } := ⟨_, rfl⟩
    rw [← hqdef]
    have hq := s.procs_put p q
    have hp' : (s.put p q).lock = some p := hp
    have hqpc : q.pc = .writing usave 0 := by rw [hqdef]
    refine h.quiet hp ?_ same_update ?_ ?_ ?_ rfl rfl rfl rfl
    · rw [hq, hqpc]
      exact hp
    · rw [hq, hqdef]
      exact fun _ => ⟨hw, rfl⟩
    · rw [Sys.ptrs_some hp' hq hqpc, hqdef]
      exact ⟨hring.lt, hring.end_eq, hring.size, hring.bytes⟩
    · rw [hq, At, hqpc, hqdef]
      refine ⟨⟨hwriter.lt, hwriter.stored, ?_, hwriter.result⟩, hnone, hc,
        fun hs => ⟨hsave hs, hsuffix hs⟩⟩
      change (s.procs p).u_base + (c + usave) = (s.writes (s.procs p).call).count
      rw [hsum]
      exact hwriter.count
  rw [floop, Nat.mod_eq_of_lt hwrap]
  split
  next hfull =>
    split
    next => exact hbroken
    next =>
      split
      next hsplit =>
        apply hstart (PIPSIZ - s.i_size)
        · omega
        · omega
        · intro hs
          have hcount := hwriter.count
          rw [Sys.small] at hs
          omega
      next =>
        split
        next =>
          refine h.returns hp hw rfl (s.pc_finish p _) same_update
            ⟨hring.lt, hring.end_eq, hring.size, hring.bytes⟩ rfl rfl rfl hwriter (.inr ?_)
          change (if _ then _ else _) = _
          rw [if_pos hnone, ← hwriter.count, Nat.add_sub_cancel]
        next =>
          have hq : ({ s.leave p { s.procs p with pc := .fwcnt false } with ifiw := true } : Sys).procs p =
              { s.procs p with pc := .fwcnt false } := update_self _ _ _
          refine h.quiet hp ?_ same_update ?_ ?_ ?_ rfl rfl rfl rfl
          · rw [hq]
            rfl
          · rw [hq]
            exact fun _ => ⟨hw, rfl⟩
          · exact ⟨hring.lt, hring.end_eq, hring.size, hring.bytes⟩
          · rw [hq]
            exact ⟨⟨hwriter.lt, hwriter.stored, hwriter.count, hwriter.result⟩, hnone, hsmall⟩
  next hroom =>
    split
    next => exact hbroken
    next => exact hstart _ 0 (by omega) rfl fun _ => rfl

/-- The loop over the blocks of a write ends. -/
theorem written_inv {usave n : ℕ} {e : Option Errno} (h : Inv s) (hp : s.lock = some p)
    (hpc : (s.procs p).pc = .writing usave n)
    (he : e = none → usave = 0 ∨ (s.procs p).u_count = 0) :
    Inv (s.put p { s.procs p with pc := .written usave, u_error := e }) := by
  obtain ⟨hwriter, -, -, hsmall⟩ := h.at_eq hpc
  have hring := h.ring_eq (Sys.ptrs_some hp rfl hpc)
  obtain ⟨q, hqdef⟩ : ∃ q, q = { s.procs p with pc := .written usave, u_error := e } := ⟨_, rfl⟩
  rw [← hqdef]
  have hq := s.procs_put p q
  have hp' : (s.put p q).lock = some p := hp
  have hqpc : q.pc = .written usave := by rw [hqdef]
  refine h.quiet hp ?_ same_update ?_ ?_ ?_ rfl rfl rfl rfl
  · rw [hq, hqpc]
    exact hp
  · rw [hq, hqdef, hpc]
    exact fun _ => ⟨rfl, rfl⟩
  · rw [Sys.ptrs_some hp' hq hqpc, hqdef]
    exact ⟨hring.lt, hring.end_eq, hring.size, hring.bytes⟩
  · rw [hq, At, hqpc, hqdef]
    exact ⟨⟨hwriter.lt, hwriter.stored, hwriter.count, hwriter.result⟩, he, hsmall⟩

/-- The block sizes of file systems -/
def Size (bsize : ℕ) : Prop := bsize = 512 ∨ bsize = 1024

theorem overlay_out {data f : ℕ → UInt8} {a k x : ℕ} (hx : x < a ∨ a + k ≤ x) :
    overlay data a k f x = data x := if_neg (by omega)

/-- The bytes of a block come into the pipe behind the others. -/
theorem Ring.store {bsize : ℕ} (hb : Size bsize) {r w : ℕ} (h : Ring s r w)
    (hw : w = q.u_offset) (hroom : q.u_count + s.i_size ≤ PIPSIZ) {f junk : ℕ → UInt8}
    {data : ℕ → UInt8} (hdata : data = if unread bsize q s then
      overlay s.data (q.u_offset - q.u_offset % bsize) bsize junk else s.data) :
    window (overlay data q.u_offset (pbsize bsize q) f) PIPSIZ r (s.i_size + pbsize bsize q) =
        window s.data PIPSIZ r s.i_size ++
          (List.range (pbsize bsize q)).map (fun i => f (q.u_offset + i)) ∧
      q.u_offset + pbsize bsize q ≤ PIPSIZ := by
  have hn : pbsize bsize q ≤ q.u_count := Nat.min_le_left _ _
  have hon : pbsize bsize q ≤ bsize - q.u_offset % bsize := Nat.min_le_right _ _
  have hlt : q.u_offset < PIPSIZ := by
    rw [← hw, h.end_eq]
    exact Nat.mod_lt _ (by decide)
  have hfit : q.u_offset + pbsize bsize q ≤ PIPSIZ := by
    simp only [PIPSIZ, NFADDR, BSIZE] at hlt ⊢
    rcases hb with rfl | rfl <;> omega
  refine ⟨?_, hfit⟩
  have hend := hw.symm.trans h.end_eq
  have hsame : window data PIPSIZ r s.i_size = window s.data PIPSIZ r s.i_size := by
    rw [hdata]
    split
    next hunread =>
      -- a buffer that is not read has no byte of the pipe
      have hfree : q.u_offset % bsize = 0 ∧ s.i_size + bsize ≤ PIPSIZ := by
        rw [unread, decide_eq_true_eq] at hunread
        have hpos : 0 < bsize := by rcases hb with rfl | rfl <;> decide
        rcases hunread with hall | ⟨hzero, hfree⟩
        · omega
        · exact ⟨hzero, by omega⟩
      rw [hfree.1, Nat.sub_zero]
      exact window_outside h.lt hfree.2 hend fun x hx => overlay_out hx
    next => rfl
  have hold : window (overlay data q.u_offset (pbsize bsize q) f) PIPSIZ r s.i_size =
      window data PIPSIZ r s.i_size :=
    window_outside h.lt (by omega) hend fun x hx => overlay_out hx
  rw [window_add, hold, hsame, ← hend, window_straight hfit]
  congr 1
  apply map_congr_left
  intro i hi
  have hi' := mem_range.mp hi
  exact if_pos ⟨Nat.le_add_right _ _, by omega⟩

/-- The bytes of one write, with what is appended for it and for others -/
theorem filter_call {k c n : ℕ} {f : ℕ → UInt8} {l : List (ℕ × UInt8)} :
    (l ++ (List.range n).map fun i => (c, f i)).filter (fun x => decide (x.1 = k)) =
      l.filter (fun x => decide (x.1 = k)) ++ if c = k then (List.range n).map fun i => (c, f i) else [] := by
  rw [filter_append]
  congr 1
  split
  next hck =>
    apply filter_eq_self.mpr
    intro x hx
    obtain ⟨i, -, rfl⟩ := mem_map.mp hx
    exact decide_eq_true hck
  next hck =>
    apply filter_eq_nil_iff.mpr
    intro x hx
    obtain ⟨i, -, rfl⟩ := mem_map.mp hx
    exact Bool.eq_false_iff.mp (decide_eq_false hck)

/-- A block of a write is stored. -/
theorem store_inv {bsize usave n k off : ℕ} {data junk : ℕ → UInt8} (hb : Size bsize) (h : Inv s)
    (hp : s.lock = some p) (hpc : (s.procs p).pc = .writing usave n)
    (hk : k = pbsize bsize (s.procs p)) (hoff : off = (s.procs p).u_offset + k)
    (hdata : data = if unread bsize (s.procs p) s then
      overlay s.data ((s.procs p).u_offset - (s.procs p).u_offset % bsize) bsize junk else s.data)
    (hs' : s' = { s.put p { s.procs p with
        pc := .writing usave k
        u_count := (s.procs p).u_count - k
        u_base := (s.procs p).u_base + k
        u_offset := if off = PIPSIZ then 0 else off } with
      data := overlay data (s.procs p).u_offset k fun x =>
        (s.writes (s.procs p).call).core ((s.procs p).u_base + (x - (s.procs p).u_offset))
      i_size := s.i_size + k
      accepted := s.accepted ++ (List.range k).map fun i =>
        ((s.procs p).call, (s.writes (s.procs p).call).core ((s.procs p).u_base + i)) }) : Inv s' := by
  obtain ⟨hwriter, hnone, hroom, hsmall⟩ := h.at_eq hpc
  have hring : Ring s s.frptr (s.procs p).u_offset := h.ring_eq (Sys.ptrs_some hp rfl hpc)
  have hw : (s.procs p).pc.writer = true := by rw [hpc]; rfl
  have hkle : k ≤ (s.procs p).u_count := hk ▸ Nat.min_le_left _ _
  obtain ⟨hstore, hfit⟩ := hring.store (f := fun x =>
    (s.writes (s.procs p).call).core ((s.procs p).u_base + (x - (s.procs p).u_offset))) hb rfl hroom hdata
  rw [← hk] at hstore hfit
  obtain ⟨q, hqdef⟩ : ∃ q, q = s'.procs p := ⟨_, rfl⟩
  have hq : q = { s.procs p with
      pc := .writing usave k
      u_count := (s.procs p).u_count - k
      u_base := (s.procs p).u_base + k
      u_offset := if off = PIPSIZ then 0 else off } := by
    rw [hqdef, hs']
    exact update_self _ _ _
  have hp' : s'.lock = some p := by rw [hs']; exact hp
  have hqpc : q.pc = .writing usave k := by rw [hq]
  have hqcall : q.call = (s.procs p).call := by rw [hq]
  have haccepted : s'.accepted = s.accepted ++ (List.range k).map fun i =>
      ((s.procs p).call, (s.writes (s.procs p).call).core ((s.procs p).u_base + i)) := by rw [hs']
  have hwrites : s'.writes = s.writes := by rw [hs']; rfl
  have hresult : s'.result = s.result := by rw [hs']; rfl
  have hsize : s'.i_size = s.i_size + k := by rw [hs']
  have hstored : s'.stored (s.procs p).call = s.stored (s.procs p).call ++ (List.range k).map fun i =>
      ((s.procs p).call, (s.writes (s.procs p).call).core ((s.procs p).u_base + i)) := by
    rw [Sys.stored, haccepted, filter_call, if_pos rfl]
    rfl
  have hbytes : (s'.stored (s.procs p).call).map Prod.snd =
      (List.range ((s.procs p).u_base + k)).map (s.writes (s.procs p).call).core := by
    rw [hstored, map_append, hwriter.stored, range_add, map_append, map_map,
      map_map]
    rfl
  have hsuffix (hs : s.small (s.procs p).call) : usave = 0 ∧
      s'.stored (s.procs p).call <:+ s'.accepted := by
    obtain ⟨husave, pre, hpre⟩ := hsmall hs
    refine ⟨husave, pre, ?_⟩
    rw [hstored, haccepted, ← append_assoc, hpre]
  refine h.step hp ?_ ?_ ?_ ?_ ?_ (by rw [hs']; rfl) hwrites ?_ ?_ fun _ => ⟨fun hs => ?_, ?_⟩
  · rw [← hqdef, hqpc]
    exact hp'
  · rw [hs']
    exact same_update
  · rw [← hqdef]
    exact fun _ => ⟨hw, hqcall⟩
  · have hfr : s'.frptr = s.frptr := by rw [hs']; rfl
    have hoffeq : q.u_offset = (s.frptr + (s.i_size + k)) % PIPSIZ := by
      rw [← Nat.add_assoc, ← Nat.mod_add_mod, ← hring.end_eq, ← hoff, hq]
      change (if off = PIPSIZ then 0 else off) = _
      rw [← hoff] at hfit
      split
      next heq => rw [heq, Nat.mod_self]
      next hne => rw [Nat.mod_eq_of_lt (by omega)]
    have hdelivered : s'.delivered = s.delivered := by rw [hs']; rfl
    have hdata' : s'.data = overlay data (s.procs p).u_offset k fun x =>
        (s.writes (s.procs p).call).core ((s.procs p).u_base + (x - (s.procs p).u_offset)) := by
      rw [hs']
    rw [Sys.ptrs_some hp' hqdef.symm hqpc]
    refine ⟨?_, ?_, ?_, ?_⟩
    · change s'.frptr < PIPSIZ
      rw [hfr]
      exact hring.lt
    · change q.u_offset = (s'.frptr + s'.i_size) % PIPSIZ
      rw [hfr, hsize]
      exact hoffeq
    · rw [hsize]
      omega
    · change _ = s'.delivered ++ window s'.data PIPSIZ s'.frptr s'.i_size
      rw [haccepted, hdelivered, hfr, hsize, hdata', hstore, map_append, hring.bytes,
        append_assoc, map_map]
      congr 2
      apply map_congr_left
      intro i _
      rw [Nat.add_sub_cancel_left]
      rfl
  · rw [← hqdef, At, hqpc]
    refine ⟨⟨?_, ?_, ?_, ?_⟩, ?_, ?_, fun hs => ?_⟩
    · rw [hqcall, show s'.calls = s.calls by rw [hs']; rfl]
      exact hwriter.lt
    · rw [hqcall, hwrites, hbytes, hq]
    · have hcount := hwriter.count
      rw [hqcall, hwrites, hq]
      change (s.procs p).u_base + k + ((s.procs p).u_count - k + usave) = _
      omega
    · rw [hqcall, hresult]
      exact hwriter.result
    · rw [hq]
      exact hnone
    · rw [hq, hsize]
      change (s.procs p).u_count - k + (s.i_size + k) ≤ PIPSIZ
      omega
    · rw [hqcall, Sys.small, hwrites] at hs
      rw [hqcall]
      exact hsuffix hs
  · rw [haccepted]
    exact prefix_append _ _
  · intro c hc
    rw [Sys.stored, haccepted, filter_call, if_neg (hc hw).symm, append_nil, hresult]
    exact ⟨rfl, rfl⟩
  · rw [Sys.small, hwrites] at hs
    exact (hsuffix hs).2.isInfix
  · refine ⟨(s.procs p).u_base + k, ?_, ?_, fun r hr => ?_⟩
    · rw [hwrites, ← hwriter.count]
      omega
    · rw [hwrites]
      exact hbytes
    · rw [hresult, hwriter.result] at hr
      exact absurd hr nofun

/-- A turn of the loop over the blocks of a write -/
theorem writeBlock_inv {bsize usave n : ℕ} {e : Env} (hb : Size bsize) (h : Inv s)
    (hp : s.lock = some p) (hpc : (s.procs p).pc = .writing usave n)
    (hsane : (s.procs p).u_count ≠ 0 → if e.alloc then
      e.copy = true ∧ (unread bsize (s.procs p) s = true ∨ e.io = true) else usave = 0 ∨ n = 0) :
    Inv (writeBlock bsize e p usave n (s.procs p) s) := by
  obtain ⟨-, hnone, -, -⟩ := h.at_eq hpc
  rw [writeBlock]
  split
  next hend =>
    have hzero : (s.procs p).u_count = 0 := hend.resolve_left (not_not.mpr hnone)
    exact written_inv h hp hpc fun _ => .inr hzero
  next hmore =>
    have hmore' : (s.procs p).u_count ≠ 0 := fun hc => hmore (.inr hc)
    have hsane' := hsane hmore'
    split
    next halloc =>
      rw [halloc] at hsane'
      apply written_inv h hp hpc
      intro he
      refine .inl (hsane'.resolve_right fun hn => ?_)
      rw [if_neg (not_not.mpr hn)] at he
      exact absurd he nofun
    next halloc =>
      rw [if_pos (eq_true_of_ne_false halloc)] at hsane'
      dsimp only
      rw [if_neg (by rw [hsane'.1]; exact nofun), if_neg]
      · exact store_inv hb h hp hpc rfl rfl rfl rfl
      · rintro ⟨hun, hio⟩
        rcases hsane'.2 with hc | hc
        · exact absurd (hun.symm.trans hc) nofun
        · exact absurd (hio.symm.trans hc) nofun

/-- A write goes on with what it did not try yet, or returns. -/
theorem endWrite_inv {usave : ℕ} (h : Inv s) (hp : s.lock = some p)
    (hpc : (s.procs p).pc = .written usave) : Inv (endWrite p usave (s.procs p) s) := by
  obtain ⟨hwriter, hleft, hsmall⟩ := h.at_eq hpc
  have hring : Ring s s.frptr (s.procs p).u_offset := h.ring_eq (Sys.ptrs_some hp rfl hpc)
  have hw : (s.procs p).pc.writer = true := by rw [hpc]; rfl
  -- readers may be woken up
  obtain ⟨t, ht, hprocs, hframe⟩ : ∃ t : Sys, endWrite p usave (s.procs p) s =
      (if (s.procs p).u_error = none ∧ usave ≠ 0 then
        t.put p { s.procs p with pc := .floop, u_count := usave } else t.finish p (s.procs p)) ∧
      (∀ r, Same (s.procs r) (t.procs r)) ∧
      ∃ ifir, t = { s with fwptr := (s.procs p).u_offset, ifir := ifir, procs := t.procs } := by
    refine ⟨_, rfl, fun r => ?_, ?_⟩
    · dsimp only
      split
      · exact .wakeFrcnt _
      · exact .refl _
    · dsimp only
      split
      · exact ⟨_, rfl⟩
      · exact ⟨_, rfl⟩
  obtain ⟨ifir, ht'⟩ := hframe
  have hothers (q : Proc) (r : ℕ) (hr : r ≠ p) : Same (s.procs r) (update t.procs p q r) := by
    rw [update_of_ne hr]
    exact hprocs r
  have hframe : t.lock = s.lock ∧ t.calls = s.calls ∧ t.writes = s.writes ∧ t.accepted = s.accepted ∧
      t.result = s.result ∧ t.i_size = s.i_size ∧ t.data = s.data ∧ t.delivered = s.delivered ∧
      t.frptr = s.frptr ∧ t.fwptr = (s.procs p).u_offset := by
    rw [ht']
    exact ⟨rfl, rfl, rfl, rfl, rfl, rfl, rfl, rfl, rfl, rfl⟩
  obtain ⟨hlock, hcalls, hwrites, haccepted, hresult, hsize, hdata, hdelivered, hfr, hfw⟩ := hframe
  have hring' : Ring t t.frptr t.fwptr := by
    refine ⟨hfr ▸ hring.lt, ?_, hsize ▸ hring.size, ?_⟩
    · rw [hfw, hfr, hsize]
      exact hring.end_eq
    · rw [haccepted, hdelivered, hdata, hfr, hsize]
      exact hring.bytes
  rw [ht]
  split
  next hagain =>
    obtain ⟨q, hqdef⟩ : ∃ q, q = { s.procs p with pc := .floop, u_count := usave } := ⟨_, rfl⟩
    rw [← hqdef]
    have hq := t.procs_put p q
    have hp' : (t.put p q).lock = some p := hlock.trans hp
    have hqpc : q.pc = .floop := by rw [hqdef]
    have hzero := (hleft hagain.1).resolve_left hagain.2
    refine h.quiet hp ?_ (hothers q) ?_ ?_ ?_ hcalls hwrites haccepted hresult
    · rw [hq, hqpc]
      exact hp'
    · rw [hq, hqdef]
      exact fun _ => ⟨hw, rfl⟩
    · rw [Sys.ptrs_some hp' hq hqpc]
      exact ⟨hring'.lt, hring'.end_eq, hring'.size, hring'.bytes⟩
    · rw [hzero, Nat.zero_add] at hwriter
      rw [hq, At, hqpc, hqdef]
      refine ⟨hwriter.frame (Nat.le_of_eq hcalls.symm) (fun k _ => congrFun hwrites k) haccepted hresult,
        hagain.1, fun hs => ?_⟩
      have hs' : s.small (s.procs p).call := by
        rw [Sys.small, ← hwrites]
        exact hs
      exact absurd (hsmall hs').1 hagain.2
  next hend =>
    have hring'' : Ring (t.finish p (s.procs p)) t.frptr t.fwptr :=
      ⟨hring'.lt, hring'.end_eq, hring'.size, hring'.bytes⟩
    refine h.returns hp hw rfl (t.pc_finish p _) (hothers _) hring'' hcalls hwrites haccepted hwriter ?_
    change (if _ then _ else _) = _ ∨ (if _ then _ else _) = _
    split
    next hnone =>
      have husave : usave = 0 := by
        by_contra hc
        exact hend ⟨hnone, hc⟩
      have hcount := hwriter.count
      rw [hresult, hwrites, ← hcount, husave, Nat.add_zero, Nat.add_sub_cancel]
      exact .inr rfl
    next => exact .inl hresult

/-- A step of a reader that holds the inode -/
theorem Inv.reader (h : Inv s) (hp : s.lock = some p) (hlock : s'.lock = if (s'.procs p).pc.inside then some p else none)
    (hothers : ∀ r, r ≠ p → Same (s.procs r) (s'.procs r)) (hw : (s'.procs p).pc.writer = false)
    (hring : Ring s' s'.ptrs.1 s'.ptrs.2) (hcalls : s'.calls = s.calls)
    (hwrites : s'.writes = s.writes) (haccepted : s'.accepted = s.accepted)
    (hresult : s'.result = s.result) : Inv s' := by
  refine h.quiet hp hlock hothers (fun hc => ?_) hring ?_ hcalls hwrites haccepted hresult
  · rw [hw] at hc
    exact absurd hc nofun
  · rw [At]
    cases hpc : (s'.procs p).pc with
    | floop | fwcnt _ | writing _ _ | written _ =>
      rw [hpc] at hw
      exact absurd hw nofun
    | idle | empty | reading | taken | frcnt _ => exact trivial

/-- A reader sleeps, returns, or comes to the first block. -/
theorem whileEmpty_inv (h : Inv s) (hp : s.lock = some p) (hpc : (s.procs p).pc = .empty) :
    Inv (whileEmpty p (s.procs p) s) := by
  have hring : Ring s s.frptr s.fwptr := h.ring_eq (Sys.ptrs_some hp rfl hpc)
  rw [whileEmpty]
  split
  next =>
    split
    next =>
      have hq := s.procs_put p { s.procs p with pc := .idle }
      refine h.reader hp ?_ same_update ?_ ?_ rfl rfl rfl rfl
      · rw [show (s.leave p { s.procs p with pc := .idle }).procs p = _ from hq]
        rfl
      · rw [show (s.leave p { s.procs p with pc := .idle }).procs p = _ from hq]
        rfl
      · exact ⟨hring.lt, hring.end_eq, hring.size, hring.bytes⟩
    next =>
      have hq := s.procs_put p { s.procs p with pc := .frcnt false }
      refine h.reader hp ?_ same_update ?_ ?_ rfl rfl rfl rfl
      · rw [show (s.leave p { s.procs p with pc := .frcnt false }).procs p = _ from hq]
        rfl
      · rw [show (s.leave p { s.procs p with pc := .frcnt false }).procs p = _ from hq]
        rfl
      · exact ⟨hring.lt, hring.end_eq, hring.size, hring.bytes⟩
  next =>
    obtain ⟨q, hqdef⟩ : ∃ q, q = { s.procs p with pc := .reading, u_offset := s.frptr } := ⟨_, rfl⟩
    rw [← hqdef]
    have hq := s.procs_put p q
    have hp' : (s.put p q).lock = some p := hp
    have hqpc : q.pc = .reading := by rw [hqdef]
    refine h.reader hp ?_ same_update ?_ ?_ rfl rfl rfl rfl
    · rw [hq, hqpc]
      exact hp
    · rw [hq, hqpc]
      rfl
    · rw [Sys.ptrs_some hp' hq hqpc, hqdef]
      exact ⟨hring.lt, hring.end_eq, hring.size, hring.bytes⟩

/-- The bytes of a block go to a reader. -/
theorem Ring.load {bsize n off : ℕ} {junk data : ℕ → UInt8} (hb : Size bsize) {w : ℕ}
    (h : Ring s q.u_offset w) (hn : n = min (pbsize bsize q) s.i_size) (hoff : off = q.u_offset + n)
    (hdata : data = if q.u_offset % bsize + n = bsize ∧ s.i_size - n < PIPSIZ - bsize then
      overlay s.data (q.u_offset - q.u_offset % bsize) bsize junk else s.data) :
    (if PIPSIZ ≤ off then 0 else off) < PIPSIZ ∧
      w = ((if PIPSIZ ≤ off then 0 else off) + (s.i_size - n)) % PIPSIZ ∧
      window s.data PIPSIZ q.u_offset s.i_size =
        (List.range n).map (fun i => s.data (q.u_offset + i)) ++
          window data PIPSIZ (if PIPSIZ ≤ off then 0 else off) (s.i_size - n) := by
  have hle : n ≤ s.i_size := hn ▸ Nat.min_le_right _ _
  have hon : n ≤ bsize - q.u_offset % bsize :=
    hn ▸ Nat.le_trans (Nat.min_le_left _ _) (Nat.min_le_right _ _)
  have hlt := h.lt
  have hfit : q.u_offset + n ≤ PIPSIZ := by
    simp only [PIPSIZ, NFADDR, BSIZE] at hlt ⊢
    rcases hb with rfl | rfl <;> omega
  have haround : (if PIPSIZ ≤ off then 0 else off) = (q.u_offset + n) % PIPSIZ := by
    rw [← hoff]
    rw [← hoff] at hfit
    split
    next hge => rw [Nat.le_antisymm hfit hge, Nat.mod_self]
    next hlt => rw [Nat.mod_eq_of_lt (by omega)]
  have hsplit : s.i_size = n + (s.i_size - n) := by omega
  rw [haround]
  refine ⟨Nat.mod_lt _ (by decide), ?_, ?_⟩
  · rw [Nat.mod_add_mod, Nat.add_assoc, ← hsplit]
    exact h.end_eq
  · have hsame : window data PIPSIZ ((q.u_offset + n) % PIPSIZ) (s.i_size - n) =
        window s.data PIPSIZ ((q.u_offset + n) % PIPSIZ) (s.i_size - n) := by
      rw [hdata]
      split
      next hfree =>
        -- the block before the bytes that are left has none of them
        have hmod := Nat.mod_le q.u_offset bsize
        apply window_before (w := q.u_offset - q.u_offset % bsize) (k := bsize) (by omega)
        · congr 1
          omega
        · omega
        · exact fun x hx => overlay_out hx
      next => rfl
    rw [hsame]
    conv_lhs => rw [hsplit]
    rw [window_add, window_straight hfit]

/-- A block of a read is delivered. -/
theorem load_inv {bsize n off : ℕ} {data junk : ℕ → UInt8} (hb : Size bsize) (h : Inv s)
    (hp : s.lock = some p) (hpc : (s.procs p).pc = .reading)
    (hn : n = min (pbsize bsize (s.procs p)) s.i_size) (hoff : off = (s.procs p).u_offset + n)
    (hdata : data = if (s.procs p).u_offset % bsize + n = bsize ∧ s.i_size - n < PIPSIZ - bsize then
      overlay s.data ((s.procs p).u_offset - (s.procs p).u_offset % bsize) bsize junk else s.data)
    (hs' : s' = { s.put p { s.procs p with
        pc := if (s.procs p).u_count - n ≠ 0 then .reading else .taken
        u_count := (s.procs p).u_count - n
        u_base := (s.procs p).u_base + n
        u_offset := if PIPSIZ ≤ off then 0 else off } with
      data := data
      i_size := s.i_size - n
      delivered := s.delivered ++ (List.range n).map fun i => s.data ((s.procs p).u_offset + i) }) :
    Inv s' := by
  have hring : Ring s (s.procs p).u_offset s.fwptr := h.ring_eq (Sys.ptrs_some hp rfl hpc)
  obtain ⟨hlt, hend, hbytes⟩ := hring.load hb hn hoff hdata
  have hp' : s'.lock = some p := by rw [hs']; exact hp
  have hq : s'.procs p = { s.procs p with
      pc := if (s.procs p).u_count - n ≠ 0 then .reading else .taken
      u_count := (s.procs p).u_count - n
      u_base := (s.procs p).u_base + n
      u_offset := if PIPSIZ ≤ off then 0 else off } := by
    rw [hs']
    exact update_self _ _ _
  have hpc' : (s'.procs p).pc = .reading ∨ (s'.procs p).pc = .taken := by
    rw [hq]
    dsimp only
    split
    · exact .inl rfl
    · exact .inr rfl
  have hptrs : s'.ptrs = (if PIPSIZ ≤ off then 0 else off, s.fwptr) := by
    have hfw : s'.fwptr = s.fwptr := by rw [hs']; rfl
    have hoff' : (s'.procs p).u_offset = if PIPSIZ ≤ off then 0 else off := by rw [hq]
    rw [← hoff', ← hfw]
    rcases hpc' with hpc' | hpc'
    · exact Sys.ptrs_some hp' rfl hpc'
    · exact Sys.ptrs_some hp' rfl hpc'
  refine h.reader hp ?_ (by rw [hs']; exact same_update) ?_ ?_ (by rw [hs']; rfl) (by rw [hs']; rfl)
    (by rw [hs']; rfl) (by rw [hs']; rfl)
  · rcases hpc' with hpc' | hpc'
    · rw [hpc']
      exact hp'
    · rw [hpc']
      exact hp'
  · rcases hpc' with hpc' | hpc'
    · rw [hpc']
      rfl
    · rw [hpc']
      rfl
  · rw [hptrs]
    have hsize : s'.i_size = s.i_size - n := by rw [hs']
    refine ⟨hlt, ?_, ?_, ?_⟩
    · rw [hsize]
      exact hend
    · rw [hsize]
      exact Nat.le_trans (Nat.sub_le _ _) hring.size
    · rw [hsize, show s'.accepted = s.accepted by rw [hs']; rfl,
        show s'.delivered = _ by rw [hs'], show s'.data = data by rw [hs'], hring.bytes, hbytes,
        append_assoc]

/-- A turn of the loop over the blocks of a read -/
theorem readBlock_inv {bsize : ℕ} {e : Env} (hb : Size bsize) (h : Inv s) (hp : s.lock = some p)
    (hpc : (s.procs p).pc = .reading)
    (hsane : min (pbsize bsize (s.procs p)) s.i_size ≠ 0 → e.io = true → e.copy = true) :
    Inv (readBlock bsize e p (s.procs p) s) := by
  have hring : Ring s (s.procs p).u_offset s.fwptr := h.ring_eq (Sys.ptrs_some hp rfl hpc)
  have htaken (q : Proc) (hqpc : q.pc = .taken) (hqoff : q.u_offset = (s.procs p).u_offset) :
      Inv (s.put p q) := by
    have hq := s.procs_put p q
    have hp' : (s.put p q).lock = some p := hp
    refine h.reader hp ?_ same_update ?_ ?_ rfl rfl rfl rfl
    · rw [hq, hqpc]
      exact hp
    · rw [hq, hqpc]
      rfl
    · rw [Sys.ptrs_some hp' hq hqpc]
      change Ring _ q.u_offset s.fwptr
      rw [hqoff]
      exact ⟨hring.lt, hring.end_eq, hring.size, hring.bytes⟩
  rw [readBlock]
  dsimp only
  split
  next => exact htaken _ rfl rfl
  next hn =>
    split
    next =>
      refine htaken _ rfl ?_
      exact if_neg (Nat.not_le.mpr hring.lt)
    next hio =>
      have hcopy := hsane hn (eq_true_of_ne_false hio)
      rw [if_neg (by rw [hcopy]; exact nofun)]
      exact load_inv hb h hp hpc rfl rfl rfl rfl

/-- A read returns, and may wake up writers. -/
theorem endRead_inv (h : Inv s) (hp : s.lock = some p) (hpc : (s.procs p).pc = .taken) :
    Inv (endRead p (s.procs p) s) := by
  have hring : Ring s (s.procs p).u_offset s.fwptr := h.ring_eq (Sys.ptrs_some hp rfl hpc)
  obtain ⟨r, w, t, hring', ht, hprocs, hframe⟩ : ∃ (r w : ℕ) (t : Sys),
      (r < PIPSIZ ∧ w = (r + s.i_size) % PIPSIZ ∧
        window s.data PIPSIZ r s.i_size = window s.data PIPSIZ (s.procs p).u_offset s.i_size) ∧
      endRead p (s.procs p) s = t.leave p { s.procs p with pc := .idle } ∧
      (∀ r, Same (s.procs r) (t.procs r)) ∧
      ∃ ifiw, t = { s with frptr := r, fwptr := w, ifiw := ifiw, procs := t.procs } := by
    rw [endRead]
    dsimp only
    split
    next hsize =>
      refine ⟨(s.procs p).u_offset, s.fwptr, _, ⟨hring.lt, hring.end_eq, rfl⟩, rfl, ?_, ?_⟩
      · intro r
        split
        · exact .wakeFwcnt _
        · exact .refl _
      · split
        · exact ⟨_, rfl⟩
        · exact ⟨_, rfl⟩
    next hsize =>
      have hzero : s.i_size = 0 := not_not.mp hsize
      refine ⟨0, 0, _, ⟨by decide, by rw [hzero]; rfl, by rw [hzero]; rfl⟩, rfl, ?_, ?_⟩
      · intro r
        split
        · exact .wakeFwcnt _
        · exact .refl _
      · split
        · exact ⟨_, rfl⟩
        · exact ⟨_, rfl⟩
  obtain ⟨ifiw, ht'⟩ := hframe
  have hq : (t.leave p { s.procs p with pc := .idle }).procs p = { s.procs p with pc := .idle } :=
    update_self _ _ _
  have hothers (r : ℕ) (hr : r ≠ p) :
      Same (s.procs r) ((t.leave p { s.procs p with pc := .idle }).procs r) := by
    change Same (s.procs r) (update t.procs p _ r)
    rw [update_of_ne hr]
    exact hprocs r
  rw [ht]
  refine h.reader hp ?_ hothers ?_ ?_ ?_ ?_ ?_ ?_
  · rw [hq]
    rfl
  · rw [hq]
    rfl
  · rw [Sys.ptrs_none rfl]
    have hsize : t.i_size = s.i_size := by rw [ht']
    have hfr : t.frptr = r := by rw [ht']
    have hfw : t.fwptr = w := by rw [ht']
    refine ⟨?_, ?_, ?_, ?_⟩
    · exact hfr ▸ hring'.1
    · change t.fwptr = (t.frptr + t.i_size) % PIPSIZ
      rw [hfr, hfw, hsize]
      exact hring'.2.1
    · exact hsize ▸ hring.size
    · change t.accepted.map Prod.snd = t.delivered ++ window t.data PIPSIZ t.frptr t.i_size
      rw [hfr, hsize, show t.data = s.data by rw [ht'], hring'.2.2,
        show t.accepted = s.accepted by rw [ht'], show t.delivered = s.delivered by rw [ht']]
      exact hring.bytes
  all_goals
    rw [Sys.leave, Sys.put]
    dsimp only
    rw [ht']

/-! ## Steps of others -/

theorem At.congr (h : At s q) (hcalls : s.calls ≤ s'.calls)
    (hwrites : ∀ k < s.calls, s'.writes k = s.writes k) (haccepted : s'.accepted = s.accepted)
    (hresult : s'.result = s.result) (hsize : s'.i_size = s.i_size) : At s' q := by
  have hsmall (hlt : q.call < s.calls) : s'.small q.call ↔ s.small q.call := by
    rw [Sys.small, hwrites _ hlt, Sys.small]
  have hstored : s'.stored q.call = s.stored q.call := by rw [Sys.stored, haccepted, Sys.stored]
  rw [At] at h ⊢
  cases hpc : q.pc with
  | floop | fwcnt _ =>
    rw [hpc] at h
    exact ⟨h.1.frame hcalls hwrites haccepted hresult, h.2.1,
      fun hs => h.2.2 ((hsmall h.1.lt).mp hs)⟩
  | writing usave n =>
    rw [hpc] at h
    obtain ⟨hwriter, hnone, hroom, hs⟩ := h
    refine ⟨hwriter.frame hcalls hwrites haccepted hresult, hnone, hsize ▸ hroom, ?_⟩
    rw [hstored, haccepted, hsmall hwriter.lt]
    exact hs
  | written usave =>
    rw [hpc] at h
    obtain ⟨hwriter, hleft, hs⟩ := h
    refine ⟨hwriter.frame hcalls hwrites haccepted hresult, hleft, ?_⟩
    rw [hstored, haccepted, hsmall hwriter.lt]
    exact hs
  | idle | empty | reading | taken | frcnt _ => exact trivial

/-- What is the same when a process comes, leaves or is woken up -/
structure Still (s s' : Sys) : Prop where
  calls : s.calls ≤ s'.calls
  writes : ∀ k < s.calls, s'.writes k = s.writes k
  accepted : s'.accepted = s.accepted
  delivered : s'.delivered = s.delivered
  result : s'.result = s.result
  data : s'.data = s.data
  i_size : s'.i_size = s.i_size
  ptrs : s'.ptrs = s.ptrs

theorem Inv.still (h : Inv s) (hs : Still s s')
    (hlock : ∀ p, (s'.procs p).pc.inside = true ↔ s'.lock = some p) (hat : ∀ p, At s' (s'.procs p))
    (hapart : ∀ p q, p ≠ q → (s'.procs p).pc.writer = true → (s'.procs q).pc.writer = true →
      (s'.procs p).call ≠ (s'.procs q).call) : Inv s' := by
  have hstored (k : ℕ) : s'.stored k = s.stored k := by rw [Sys.stored, hs.accepted, Sys.stored]
  refine ⟨hlock, ?_, hat, hapart, fun k => ?_, fun k hk => ?_⟩
  · rw [hs.ptrs]
    obtain ⟨hlt, hend, hsize, hbytes⟩ := h.ring
    refine ⟨hlt, hs.i_size ▸ hend, hs.i_size ▸ hsize, ?_⟩
    rw [hs.accepted, hs.delivered, hs.data, hs.i_size]
    exact hbytes
  · by_cases hk : k < s.calls
    · exact (h.told k).frame (hstored k) (hs.writes k hk) (congrFun hs.result k)
        (hs.accepted ▸ prefix_refl _)
    · obtain ⟨hnil, hres⟩ := h.fresh k (Nat.le_of_not_lt hk)
      refine ⟨fun _ => ?_, 0, Nat.zero_le _, ?_, fun r hr => ?_⟩
      · rw [hstored, hnil]
        exact nil_infix
      · rw [hstored, hnil]
        rfl
      · rw [hs.result, hres] at hr
        exact absurd hr nofun
  · rw [hstored, hs.result]
    exact h.fresh k (Nat.le_trans hs.calls hk)

/-- A process that does not hold the inode comes to another pc. -/
theorem Inv.other (h : Inv s) (hs : Still s s') (hprocs : s'.procs = update s.procs p q)
    (hlock : ∀ r, r ≠ p → (s'.lock = some r ↔ s.lock = some r))
    (hin : q.pc.inside = true ↔ s'.lock = some p) (hat : At s' q)
    (hapart : q.pc.writer = true → ∀ r, r ≠ p → (s.procs r).pc.writer = true →
      (s.procs r).call ≠ q.call) : Inv s' := by
  have hp : s'.procs p = q := by rw [hprocs, update_self]
  have hr {r : ℕ} (hr : r ≠ p) : s'.procs r = s.procs r := by
    rw [hprocs, update_of_ne hr]
  refine h.still hs (fun r => ?_) (fun r => ?_) fun a b hab ha hb => ?_
  · by_cases hrp : r = p
    · rw [hrp, hp]
      exact hin
    · rw [hr hrp, hlock r hrp]
      exact h.lock r
  · by_cases hrp : r = p
    · rw [hrp, hp]
      exact hat
    · rw [hr hrp]
      exact (h.at_pc r).congr hs.calls hs.writes hs.accepted hs.result hs.i_size
  · by_cases hap : a = p
    · have hbp : b ≠ p := fun hc => hab (hap.trans hc.symm)
      rw [hap, hp] at ha ⊢
      rw [hr hbp] at hb ⊢
      exact (hapart ha b hbp hb).symm
    · rw [hr hap] at ha ⊢
      by_cases hbp : b = p
      · rw [hbp, hp] at hb ⊢
        exact hapart hb a hap ha
      · rw [hr hbp] at hb ⊢
        exact h.apart a b hab ha hb

/-- A process takes the inode that no other one holds. -/
theorem Inv.enter {n : ℕ} {w : ℕ → Write} (h : Inv s) (hfree : s.lock = none)
    (hcalls : s.calls ≤ n) (hwrites : ∀ k < s.calls, w k = s.writes k)
    (hpc : q.pc = .floop ∨ q.pc = .empty)
    (hat : At { s.put p q with lock := some p, calls := n, writes := w } q)
    (hapart : q.pc.writer = true → ∀ r, r ≠ p → (s.procs r).pc.writer = true →
      (s.procs r).call ≠ q.call) :
    Inv { s.put p q with lock := some p, calls := n, writes := w } := by
  obtain ⟨s', hs'⟩ : ∃ s' : Sys, s' = { s.put p q with lock := some p, calls := n, writes := w } :=
    ⟨_, rfl⟩
  have hq : s'.procs p = q := by rw [hs']; exact s.procs_put p q
  have hlock : s'.lock = some p := by rw [hs']
  have hptrs : s'.ptrs = s.ptrs := by
    have hsame : (s'.frptr, s'.fwptr) = (s.frptr, s.fwptr) := by rw [hs']; rfl
    rw [Sys.ptrs_none hfree, ← hsame]
    rcases hpc with hpc | hpc
    · exact Sys.ptrs_some hlock hq hpc
    · exact Sys.ptrs_some hlock hq hpc
  rw [hs'] at hptrs
  refine h.other ⟨hcalls, hwrites, rfl, rfl, rfl, rfl, rfl, hptrs⟩ rfl (fun r hr => ?_) ?_ hat hapart
  · rw [hfree]
    exact ⟨fun hc => absurd (Option.some.inj hc).symm hr, nofun⟩
  · rcases hpc with hpc | hpc
    · rw [hpc]
      exact ⟨fun _ => rfl, fun _ => rfl⟩
    · rw [hpc]
      exact ⟨fun _ => rfl, fun _ => rfl⟩

theorem wake_inside (hq : q.pc.inside = true) : q.wakeFrcnt.wakeFwcnt = q := by
  have hr : q.wakeFrcnt = q := by
    rw [Proc.wakeFrcnt, if_neg]
    intro hpc
    rw [hpc] at hq
    exact absurd hq nofun
  rw [hr, Proc.wakeFwcnt, if_neg]
  intro hpc
  rw [hpc] at hq
  exact absurd hq nofun

/-- Opens and closes wake processes up. -/
theorem counts_inv {frcnt fwcnt : ℕ} (h : Inv s) : Inv { s with
    frcnt := frcnt, fwcnt := fwcnt, procs := fun r => (s.procs r).wakeFrcnt.wakeFwcnt } := by
  have hsame (r : ℕ) : Same (s.procs r) (s.procs r).wakeFrcnt.wakeFwcnt :=
    (Same.wakeFrcnt _).trans (Same.wakeFwcnt _)
  obtain ⟨s', hs'⟩ : ∃ s' : Sys, s' = { s with
    frcnt := frcnt, fwcnt := fwcnt, procs := fun r => (s.procs r).wakeFrcnt.wakeFwcnt } := ⟨_, rfl⟩
  have hlock : s'.lock = s.lock := by rw [hs']
  have hptrs : s'.ptrs = s.ptrs := by
    rcases Option.eq_none_or_eq_some s.lock with hnone | ⟨p, hp⟩
    · rw [Sys.ptrs_none hnone, Sys.ptrs_none (hlock.trans hnone), hs']
    · have hq : s'.procs p = s.procs p := by
        rw [hs']
        exact wake_inside ((h.lock p).mpr hp)
      rw [Sys.ptrs_some hp rfl rfl, Sys.ptrs_some (hlock.trans hp) hq rfl, hs']
      rfl
  rw [hs'] at hptrs
  refine h.still ⟨Nat.le_refl _, fun _ _ => rfl, rfl, rfl, rfl, rfl, rfl, hptrs⟩ (fun r => ?_) (fun r => ?_)
    fun a b hab ha hb => ?_
  · change ((s.procs r).wakeFrcnt.wakeFwcnt).pc.inside = true ↔ s.lock = some r
    rw [(hsame r).inside]
    exact h.lock r
  · exact ((hsame r).at_pc s (h.at_pc r)).congr (Nat.le_refl _) (fun _ _ => rfl) rfl rfl rfl
  · change ((s.procs a).wakeFrcnt.wakeFwcnt).pc.writer = true at ha
    change ((s.procs b).wakeFrcnt.wakeFwcnt).pc.writer = true at hb
    change ((s.procs a).wakeFrcnt.wakeFwcnt).call ≠ ((s.procs b).wakeFrcnt.wakeFwcnt).call
    rw [(hsame a).writer] at ha
    rw [(hsame b).writer] at hb
    rw [(hsame a).call, (hsame b).call]
    exact h.apart a b hab ha hb

/-- A signal takes a process out of its sleep. -/
theorem signal_inv (h : Inv s) (hin : (s.procs p).pc.inside = false) :
    Inv (s.put p { s.procs p with pc := .idle }) := by
  have hlock : s.lock ≠ some p := by
    intro hc
    rw [(h.lock p).mpr hc] at hin
    exact absurd hin nofun
  have hptrs : (s.put p { s.procs p with pc := .idle }).ptrs = s.ptrs := by
    cases hr : s.lock with
    | none =>
      rw [Sys.ptrs_none hr]
      exact Sys.ptrs_none hr
    | some r =>
      have hrp : r ≠ p := fun hc => hlock (hc ▸ hr)
      rw [Sys.ptrs_some hr rfl rfl]
      exact Sys.ptrs_some hr (update_of_ne hrp _ _) rfl
  refine h.other ⟨Nat.le_refl _, fun _ _ => rfl, rfl, rfl, rfl, rfl, rfl, hptrs⟩ rfl
    (fun _ _ => Iff.rfl) ?_ trivial nofun
  exact ⟨nofun, fun hc => absurd hc hlock⟩

end

/-- No transfer wraps around with the size, no copy and no read of a block that is written fails, and
`s5alloc` fails only where nothing more is to be written. -/
def SaneAt (bsize : ℕ) (e : Env) (q : Proc) (s : Sys) : Pc → Prop
  | .floop => q.u_count + s.i_size < 2 ^ 32
  | .writing usave n => q.u_count ≠ 0 → if e.alloc then
      e.copy = true ∧ (unread bsize q s = true ∨ e.io = true) else usave = 0 ∨ n = 0
  | .reading => min (pbsize bsize q) s.i_size ≠ 0 → e.io = true → e.copy = true
  | .idle | .written _ | .fwcnt _ | .empty | .taken | .frcnt _ => True

def Sane (bsize : ℕ) (s : Sys) : Act → Prop
  | .go p e => SaneAt bsize e (s.procs p) s (s.procs p).pc
  | .write _ _ _ | .read _ _ _ | .wake _ | .signal _ | .counts _ _ => True

instance (bsize : ℕ) (e : Env) (q : Proc) (s : Sys) : DecidablePred (SaneAt bsize e q s)
  | .floop => inferInstanceAs (Decidable (_ < _))
  | .writing usave n => inferInstanceAs (Decidable (q.u_count ≠ 0 → if e.alloc then
      e.copy = true ∧ (unread bsize q s = true ∨ e.io = true) else usave = 0 ∨ n = 0))
  | .reading =>
    inferInstanceAs (Decidable (min (pbsize bsize q) s.i_size ≠ 0 → e.io = true → e.copy = true))
  | .idle | .written _ | .fwcnt _ | .empty | .taken | .frcnt _ => .isTrue trivial

instance (bsize : ℕ) (s : Sys) : DecidablePred (Sane bsize s)
  | .go p e => inferInstanceAs (Decidable (SaneAt bsize e (s.procs p) s (s.procs p).pc))
  | .write _ _ _ | .read _ _ _ | .wake _ | .signal _ | .counts _ _ => .isTrue trivial

theorem go_inv {bsize : ℕ} (hb : Size bsize) {s s' : Sys} {p : ℕ} {e : Env} (h : Inv s)
    (hp : s.lock = some p) (hs : go bsize e p s = some s') (hsane : Sane bsize s (.go p e)) :
    Inv s' := by
  rw [go] at hs
  rw [Sane] at hsane
  cases hpc : (s.procs p).pc with
  | floop =>
    rw [hpc] at hs hsane
    exact Option.some.inj hs ▸ floop_inv h hp hpc hsane
  | writing usave n =>
    rw [hpc] at hs hsane
    exact Option.some.inj hs ▸ writeBlock_inv hb h hp hpc hsane
  | written usave =>
    rw [hpc] at hs
    exact Option.some.inj hs ▸ endWrite_inv h hp hpc
  | empty =>
    rw [hpc] at hs
    exact Option.some.inj hs ▸ whileEmpty_inv h hp hpc
  | reading =>
    rw [hpc] at hs hsane
    exact Option.some.inj hs ▸ readBlock_inv hb h hp hpc hsane
  | taken =>
    rw [hpc] at hs
    exact Option.some.inj hs ▸ endRead_inv h hp hpc
  | idle | fwcnt _ | frcnt _ =>
    rw [hpc] at hs
    exact absurd hs nofun

theorem inv_step {bsize : ℕ} (hb : Size bsize) {s s' : Sys} {a : Act} (h : Inv s)
    (hs : next bsize s a = some s' ∧ Sane bsize s a) : Inv s' := by
  obtain ⟨hs, hsane⟩ := hs
  cases a with
  | write p w ndelay =>
    rw [next] at hs
    split at hs
    next hok =>
      obtain ⟨hnil, hres⟩ := h.fresh s.calls (Nat.le_refl _)
      refine Option.some.inj hs ▸ h.enter hok.2.1 (Nat.le_succ _) (fun k hk => ?_) (.inl rfl) ?_ ?_
      · exact update_of_ne (Nat.ne_of_lt hk) _ _
      · refine ⟨⟨Nat.lt_succ_self _, ?_, ?_, hres⟩, rfl, fun _ => rfl⟩
        · exact congrArg _ hnil
        · change 0 + w.count = (update s.writes s.calls w s.calls).count
          rw [update_self, Nat.zero_add]
      · exact fun _ r _ hr => Nat.ne_of_lt (h.call_lt hr)
    next => exact absurd hs nofun
  | read p count ndelay =>
    rw [next] at hs
    split at hs
    next hok =>
      split at hs
      next => exact Option.some.inj hs ▸ h
      next =>
        exact Option.some.inj hs ▸ h.enter hok.2.1 (Nat.le_refl _) (fun _ _ => rfl) (.inr rfl) trivial nofun
    next => exact absurd hs nofun
  | go p e =>
    rw [next] at hs
    split at hs
    next hp => exact go_inv hb h hp hs hsane
    next => exact absurd hs nofun
  | wake p =>
    rw [next] at hs
    split at hs
    next hfree =>
      cases hpc : (s.procs p).pc with
      | fwcnt awake =>
        rw [hpc] at hs
        cases awake with
        | false => exact absurd hs nofun
        | true =>
          have hat := h.at_eq hpc
          refine Option.some.inj hs ▸ h.enter hfree (Nat.le_refl _) (fun _ _ => rfl) (.inl rfl) ?_ ?_
          · exact ⟨hat.1.frame (Nat.le_refl _) (fun _ _ => rfl) rfl rfl, hat.2⟩
          · exact fun _ r hr hw => h.apart r p hr hw (by rw [hpc]; rfl)
      | frcnt awake =>
        rw [hpc] at hs
        cases awake with
        | false => exact absurd hs nofun
        | true =>
          exact Option.some.inj hs ▸ h.enter hfree (Nat.le_refl _) (fun _ _ => rfl) (.inr rfl) trivial nofun
      | idle | floop | writing _ _ | written _ | empty | reading | taken =>
        rw [hpc] at hs
        exact absurd hs nofun
    next => exact absurd hs nofun
  | signal p =>
    rw [next] at hs
    cases hpc : (s.procs p).pc with
    | fwcnt awake =>
      rw [hpc] at hs
      exact Option.some.inj hs ▸ signal_inv h (hpc ▸ rfl)
    | frcnt awake =>
      rw [hpc] at hs
      exact Option.some.inj hs ▸ signal_inv h (hpc ▸ rfl)
    | idle | floop | writing _ _ | written _ | empty | reading | taken =>
      rw [hpc] at hs
      exact absurd hs nofun
  | counts frcnt fwcnt =>
    rw [next] at hs
    split at hs
    next => exact Option.some.inj hs ▸ counts_inv h
    next => exact absurd hs nofun

/-- The bytes that readers got and those in the pipe are the ones that were stored, in order, and each
write stored the first of its bytes: as many as it returned, and in one piece if it is small. -/
structure Law (s : Sys) : Prop where
  bytes : ∃ pending, s.accepted.map Prod.snd = s.delivered ++ pending ∧ pending.length = s.i_size
  size : s.i_size ≤ PIPSIZ
  told : ∀ k, Told s k

theorem Inv.law {s : Sys} (h : Inv s) : Law s :=
  ⟨⟨_, h.ring.bytes, length_window⟩, h.ring.size, h.told⟩

theorem inv_init (frcnt fwcnt : ℕ) (data : ℕ → UInt8) : Inv (Sys.init frcnt fwcnt data) :=
  ⟨fun _ => ⟨nofun, nofun⟩, ⟨show 0 < PIPSIZ by decide, rfl, Nat.zero_le _, rfl⟩, fun _ => trivial, fun _ _ _ => nofun,
    fun _ => ⟨fun _ => nil_infix, 0, Nat.zero_le _, rfl, nofun⟩, fun _ _ => ⟨rfl, rfl⟩⟩

/-- While no transfer wraps around and no copy fails, a pipe delivers what was written to it. -/
theorem pipe_delivers {bsize : ℕ} (hb : Size bsize) {frcnt fwcnt : ℕ} {data : ℕ → UInt8}
    {as : List Act} {s : Sys}
    (hrun : Run (fun s a s' => next bsize s a = some s' ∧ Sane bsize s a)
      (Sys.init frcnt fwcnt data) as s) : Law s :=
  Inv.law (hrun.invariant (fun _ _ _ => inv_step hb) (inv_init frcnt fwcnt data))

/-- A block that is as it should be -/
def fine : Env := ⟨true, true, true, fun _ => 0⟩

/-- The bytes 0, 1, 2, .. -/
def bytes (count : ℕ) : Write := ⟨UInt8.ofNat, count⟩

def opened : Sys := Sys.init 1 1 fun _ => 0

/-- Process 0 writes three bytes, of which process 1 reads two. -/
def readTwo : List Act :=
  [.write 0 (bytes 3) false, .go 0 fine, .go 0 fine, .go 0 fine, .go 0 fine, .read 1 2 false,
    .go 1 fine, .go 1 fine, .go 1 fine]

theorem pipe_delivers_readTwo :
    ∃ s, s.delivered = [0, 1] ∧ s.i_size = 1 ∧ s.result 0 = some 3 ∧ Law s := by
  have hrun : ((readTwo.foldlM (fun s a => if Sane 1024 s a then next 1024 s a else none) opened).any
      fun s => s.delivered = [0, 1] ∧ s.i_size = 1 ∧ s.result 0 = some 3) = true := by
    decide
  obtain ⟨s, hs, hend⟩ := Run.of_foldlM hrun
  have hsane : Run (fun s a s' => next 1024 s a = some s' ∧ Sane 1024 s a) opened readTwo s := by
    apply hs.mono
    intro s a s' ha
    split at ha
    next hl => exact ⟨ha, hl⟩
    next => exact absurd ha nofun
  obtain ⟨hgot, hsize, hres⟩ := of_decide_eq_true hend
  exact ⟨s, hgot, hsize, hres, pipe_delivers (.inr rfl) hsane⟩

/-- With a byte in the pipe, the largest size that a process can ask for wraps around. -/
theorem largest_overflows : ¬ ∀ (bsize frcnt fwcnt : ℕ) (data : ℕ → UInt8) (as : List Act) (s : Sys),
    Size bsize → Run (fun s a s' => next bsize s a = some s') (Sys.init frcnt fwcnt data) as s →
      Law s := by
  intro hall
  have hrun : ((([.write 0 (bytes 1) false, .go 0 fine, .go 0 fine, .go 0 fine, .go 0 fine,
      .write 1 (bytes (2 ^ 32 - 1)) false, .go 1 fine, .go 1 fine, .go 1 fine, .go 1 fine, .go 1 fine,
      .go 1 fine, .go 1 fine] : List Act).foldlM (next 1024) opened).any fun s => s.i_size = 6144) =
      true := by
    decide
  obtain ⟨s, hs, hend⟩ := Run.of_foldlM hrun
  have hsize := (hall 1024 1 1 _ _ s (.inr rfl) hs).size
  rw [of_decide_eq_true hend] at hsize
  exact absurd hsize (by decide)

end Svr3.S5.Fifo
