import Svr3.Nudnix.RcopyoutRun

/-!
# Bytes that `rcopyout` loses

Where the calls of a system call do not fit, a byte has no part in what the server does: the last one of a
call with `U_RCOPY` that has more bytes than one message, or the last one that waits when a call with the flag
comes.
-/

namespace Svr3.Rfs

open List

/-- The calls of a shape with the byte `b` at the end, after zeros -/
def Shape.call (c : Shape) (b : UInt8) : Copyout :=
  ⟨c.rcopy, if c.n = 0 then [] else List.replicate (c.n - 1) 0 ++ [b], c.dst⟩

section lost

variable {s : Serve} {w : Option ℕ} {c : Shape} {cs cs' : List Copyout} {shapes : List Shape} {dst l : ℕ}
  {xs : List UInt8} {b b' : UInt8}

@[simp] theorem shape_call : (c.call b).shape = c := by
  unfold Shape.call Copyout.shape
  cases c with
  | mk rcopy n dst =>
    dsimp only
    split
    next hn => rw [hn]; rfl
    next hn =>
      rw [length_append, length_replicate, length_singleton,
        Nat.sub_add_cancel (Nat.pos_of_ne_zero hn)]

theorem map_shape_call (shapes : List Shape) : (shapes.map fun c => c.call 0).map Copyout.shape = shapes := by
  rw [map_map]
  conv_rhs => rw [← map_id shapes]
  apply map_congr_left
  intro c _
  exact shape_call

/-- The last byte of the last message is not looked at with `U_RCOPY`. -/
theorem copyLoop_now_last (dst : ℕ) (xs : List UInt8) (s : Serve) (b b' : UInt8) :
    copyLoop true dst (xs ++ [b]) s = copyLoop true dst (xs ++ [b']) s := by
  induction hn : xs.length using Nat.strongRecOn generalizing dst xs s with
  | _ n ih =>
    have hfirst (b : UInt8) : copyLoop true dst (xs ++ [b]) s =
        if xs.length + 1 ≤ DATASIZE then { sendReady s with u_copymsg := none }
        else copyLoop true (dst + DATASIZE) ((xs ++ [b]).drop DATASIZE)
          ((sendReady s).fill dst (xs ++ [b])) := by
      rw [copyLoop, if_neg (by simp), length_append, length_singleton]
      simp only [true_and]
    rw [hfirst, hfirst]
    split
    · rfl
    next hmore =>
      have hlong : DATASIZE ≤ xs.length := by omega
      unfold Serve.fill
      rw [take_append_of_le_length hlong, take_append_of_le_length hlong,
        drop_append_of_le_length hlong, drop_append_of_le_length hlong]
      apply ih (xs.drop DATASIZE).length _ _ _ _ rfl
      rw [length_drop, ← hn]
      have hpos : 0 < DATASIZE := Nat.zero_lt_succ 1023
      omega

/-- Without it the byte waits in the last message. -/
theorem copyLoop_later_last (dst : ℕ) (xs : List UInt8) (s : Serve) :
    ∃ (s1 : Serve) (a : ℕ) (ys : List UInt8), ∀ b,
      copyLoop false dst (xs ++ [b]) s = { s1 with u_copymsg := some ⟨a, ys ++ [b], false⟩ } := by
  induction hn : xs.length using Nat.strongRecOn generalizing dst xs s with
  | _ n ih =>
    have hfirst (b : UInt8) : copyLoop false dst (xs ++ [b]) s =
        copyLoop false (dst + DATASIZE) ((xs ++ [b]).drop DATASIZE) ((sendReady s).fill dst (xs ++ [b])) := by
      rw [copyLoop, if_neg (by simp), if_neg (fun hc => absurd hc.1 (by rintro ⟨⟩))]
    by_cases hlong : DATASIZE ≤ xs.length
    · obtain ⟨s1, a, ys, hloop⟩ := ih (xs.drop DATASIZE).length (by
        have hpos : 0 < DATASIZE := Nat.zero_lt_succ 1023
        rw [length_drop, ← hn]
        omega) (dst + DATASIZE) (xs.drop DATASIZE)
        { sendReady s with u_copymsg := some ⟨dst, xs.take DATASIZE, false⟩ } rfl
      refine ⟨s1, a, ys, fun b => ?_⟩
      rw [hfirst, Serve.fill, take_append_of_le_length hlong, drop_append_of_le_length hlong, hloop]
    · refine ⟨sendReady s, dst, xs, fun b => ?_⟩
      have hshort : (xs ++ [b]).length ≤ DATASIZE := by
        rw [length_append, length_singleton]
        omega
      rw [hfirst, Serve.fill, take_of_length_le hshort, drop_of_length_le hshort, copyLoop,
        if_pos rfl]

/-- The bytes to be stored tell the last bytes of a call. -/
theorem stores_call_ne (hn : c.n ≠ 0) (cs : List Copyout) :
    ((c.call 0 :: cs).flatMap fun c => stores c.dst c.data) ≠
      (c.call 1 :: cs).flatMap fun c => stores c.dst c.data := by
  intro heq
  rw [flatMap_cons, flatMap_cons] at heq
  have hdata := stores_inj (append_cancel_right heq)
  unfold Shape.call at hdata
  rw [if_neg hn, if_neg hn] at hdata
  have hlast := append_cancel_left hdata
  exact absurd hlast (by decide)

/-- Two lists of calls of the same shapes that have different bytes, and lead to the same state. -/
def Confused (shapes : List Shape) : Prop :=
  ∃ cs cs' : List Copyout, cs.map Copyout.shape = shapes ∧ cs'.map Copyout.shape = shapes ∧
    (cs.flatMap fun c => stores c.dst c.data) ≠ (cs'.flatMap fun c => stores c.dst c.data) ∧
    ∀ s, cs.foldl rcopyout s = cs'.foldl rcopyout s

/-- Calls of the shapes that do not look at the message that waits. -/
def Overwrites (shapes : List Shape) : Prop :=
  ∃ cs : List Copyout, cs.map Copyout.shape = shapes ∧ ∀ (s : Serve) (m m' : Copymsg),
    cs.foldl rcopyout { s with u_copymsg := some m } = cs.foldl rcopyout { s with u_copymsg := some m' }

theorem Confused.cons (h : Confused shapes) (c : Shape) : Confused (c :: shapes) := by
  obtain ⟨cs, cs', hcs, hcs', hne, hsame⟩ := h
  refine ⟨c.call 0 :: cs, c.call 0 :: cs', ?_, ?_, ?_, fun s => hsame _⟩
  · rw [map_cons, shape_call, hcs]
  · rw [map_cons, shape_call, hcs']
  · intro heq
    rw [flatMap_cons, flatMap_cons] at heq
    exact hne (append_cancel_left heq)

/-- Where the calls do not fit, a byte is lost: one of theirs, or one that waits before them. -/
theorem not_allFit (h : ¬AllFit w shapes) : Confused shapes ∨ (∃ l, w = some l ∧ l ≠ 0) ∧ Overwrites shapes := by
  induction shapes generalizing w with
  | nil => exact absurd trivial h
  | cons c shapes ih =>
    by_cases hfits : c.Fits w
    · have hrest : ¬AllFit (c.waits w) shapes := fun hr => h ⟨hfits, hr⟩
      rcases ih hrest with hconf | ⟨⟨l, hl, hl0⟩, cs, hcs, hover⟩
      · exact .inl (hconf.cons c)
      · unfold Shape.waits at hl
        by_cases hn : c.n = 0
        · rw [if_pos hn] at hl
          cases hrcopy : c.rcopy with
          | true =>
            rw [hrcopy, if_pos rfl] at hl
            exact absurd (Option.some.inj hl).symm hl0
          | false =>
            rw [hrcopy, if_neg (by rintro ⟨⟩)] at hl
            refine .inr ⟨⟨l, hl, hl0⟩, c.call 0 :: cs, ?_, fun s m m' => ?_⟩
            · rw [map_cons, shape_call, hcs]
            · have hskip (s : Serve) : rcopyout s (c.call 0) = s := by
                rw [rcopyout, Shape.call, hrcopy, if_pos hn]
                rw [copyLoop, if_pos rfl]
                exact if_neg (by rintro ⟨⟩)
              rw [foldl_cons, foldl_cons, hskip, hskip]
              exact hover s m m'
        · rw [if_neg hn] at hl
          have hrcopy : c.rcopy = false := by
            by_contra hc
            rw [if_pos (Bool.not_eq_false _ ▸ hc)] at hl
            cases hl
          refine .inl ⟨c.call 0 :: cs, c.call 1 :: cs, ?_, ?_, stores_call_ne hn cs, fun s => ?_⟩
          · rw [map_cons, shape_call, hcs]
          · rw [map_cons, shape_call, hcs]
          · obtain ⟨s1, a, ys, hloop⟩ := copyLoop_later_last c.dst (List.replicate (c.n - 1) 0) s
            have hcall (b : UInt8) : rcopyout s (c.call b) =
                { s1 with u_copymsg := some ⟨a, ys ++ [b], false⟩ } := by
              rw [rcopyout, Shape.call, hrcopy, if_neg hn]
              exact hloop b
            rw [foldl_cons, foldl_cons, hcall, hcall]
            exact hover s1 _ _
    · unfold Shape.Fits at hfits
      have hrcopy : c.rcopy = true := by
        by_contra hc
        exact hfits fun hr => absurd hr hc
      by_cases hlong : c.n ≤ DATASIZE
      · -- the message of the call takes the place of the one that waits
        have hwaits : w.getD 0 ≠ 0 := fun hz => hfits fun _ => ⟨hlong, hz⟩
        cases w with
        | none => exact absurd rfl hwaits
        | some l =>
          refine .inr ⟨⟨l, rfl, hwaits⟩, (c :: shapes).map fun c => c.call 0, map_shape_call _, fun s m m' => ?_⟩
          rw [map_cons, foldl_cons, foldl_cons]
          congr 1
          have hkeep : (c.call 0).rcopy = true := hrcopy
          rw [rcopyout, rcopyout, hkeep]
          rfl
      · have hn : c.n ≠ 0 := by
          intro hz
          rw [hz] at hlong
          exact hlong (Nat.zero_le _)
        refine .inl ⟨c.call 0 :: shapes.map fun c => c.call 0, c.call 1 :: shapes.map fun c => c.call 0, ?_, ?_,
          stores_call_ne hn _, fun s => ?_⟩
        · rw [map_cons, shape_call, map_shape_call]
        · rw [map_cons, shape_call, map_shape_call]
        · rw [foldl_cons, foldl_cons]
          congr 1
          rw [rcopyout, rcopyout, Shape.call, Shape.call, hrcopy, if_neg hn, if_neg hn]
          have hfill (b : UInt8) : s.fill c.dst (List.replicate (c.n - 1) 0 ++ [b]) =
              s.fill c.dst (List.replicate (c.n - 1) 0) := by
            unfold Serve.fill
            rw [take_append_of_le_length (by rw [length_replicate]; omega)]
          rw [if_pos rfl, if_pos rfl, hfill, hfill]
          exact copyLoop_now_last c.dst _ _ 0 1

/-- The last bytes of the calls wait. -/
theorem copyLoop_data (dst : ℕ) (s : Serve) {data : List UInt8} (hdata : data ≠ []) :
    ∃ a, (copyLoop false dst data s).u_copymsg =
      some ⟨a, data.drop (data.length - Shape.tail ⟨false, data.length, dst⟩), false⟩ := by
  induction dst, data, s using copyLoop.induct false with
  | case1 dst s => exact absurd rfl hdata
  | case2 dst data s _ hlast => cases hlast.1
  | case3 dst data s _ hmore ih =>
    have hpos : 0 < data.length := length_pos_iff.mpr hdata
    rw [copyLoop, if_neg hdata, if_neg hmore]
    unfold Shape.tail at ih ⊢
    dsimp only at ih ⊢
    by_cases hrest : data.drop DATASIZE = []
    · have hle : data.length ≤ DATASIZE := drop_eq_nil_iff.mp hrest
      refine ⟨dst, ?_⟩
      rw [hrest, copyLoop, if_pos rfl, Nat.mod_eq_of_lt (by omega), Nat.sub_add_cancel hpos, Nat.sub_self,
        drop_zero, Serve.fill, take_of_length_le hle]
    · have hlt : DATASIZE < data.length := by
        rw [drop_eq_nil_iff] at hrest
        omega
      obtain ⟨a, ha⟩ := ih hrest
      refine ⟨a, ?_⟩
      have hsub : data.length - 1 = (data.drop DATASIZE).length - 1 + DATASIZE := by
        rw [length_drop]
        omega
      have hmod : ((data.drop DATASIZE).length - 1) % DATASIZE ≤ (data.drop DATASIZE).length - 1 :=
        Nat.mod_le _ _
      rw [ha, hsub, Nat.add_mod_right, drop_drop]
      congr 3
      rw [length_drop] at hmod ⊢
      omega

/-- What waits at the end can be any bytes. -/
theorem exists_waiting (hw : shapes.foldl Shape.waits none = some l) (data : List UInt8)
    (hdata : data.length = l) : ∃ (cs : List Copyout) (m : Copymsg), cs.map Copyout.shape = shapes ∧
      (cs.foldl rcopyout .start).u_copymsg = some m ∧ m.rp_data = data := by
  induction shapes using List.reverseRecOn with
  | nil => cases hw
  | append_singleton shapes c ih =>
    rw [foldl_concat] at hw
    unfold Shape.waits at hw
    by_cases hn : c.n = 0
    · rw [if_pos hn] at hw
      cases hrcopy : c.rcopy with
      | true =>
        rw [hrcopy, if_pos rfl] at hw
        cases hw
        refine ⟨(shapes ++ [c]).map fun c => c.call 0, ⟨c.dst, [], false⟩, map_shape_call _, ?_,
          (eq_nil_of_length_eq_zero hdata).symm⟩
        rw [map_append, map_singleton, foldl_concat, rcopyout, Shape.call, hrcopy, if_pos hn,
          if_pos rfl, copyLoop, if_pos rfl]
        rfl
      | false =>
        rw [hrcopy, if_neg (by rintro ⟨⟩)] at hw
        obtain ⟨cs, m, hcs, hm, hmd⟩ := ih hw
        refine ⟨cs ++ [c.call 0], m, ?_, ?_, hmd⟩
        · rw [map_append, hcs, map_singleton, shape_call]
        · rw [foldl_concat, rcopyout, Shape.call, hrcopy, if_pos hn, if_neg (by rintro ⟨⟩), copyLoop, if_pos rfl]
          exact hm
    · rw [if_neg hn] at hw
      have hrcopy : c.rcopy = false := by
        by_contra hc
        rw [if_pos (Bool.not_eq_false _ ▸ hc)] at hw
        cases hw
      rw [hrcopy, if_neg (by rintro ⟨⟩)] at hw
      have htail : c.tail = l := Option.some.inj hw
      have hle : l ≤ c.n := by
        rw [← htail, Shape.tail]
        have hmod := Nat.mod_le (c.n - 1) DATASIZE
        omega
      have hlen : (List.replicate (c.n - l) 0 ++ data).length = c.n := by
        rw [length_append, length_replicate, hdata, Nat.sub_add_cancel hle]
      have hne : List.replicate (c.n - l) 0 ++ data ≠ [] := by
        intro hnil
        rw [hnil] at hlen
        exact hn hlen.symm
      obtain ⟨a, ha⟩ := copyLoop_data c.dst ((shapes.map fun c => c.call 0).foldl rcopyout .start) hne
      refine ⟨(shapes.map fun c => c.call 0) ++ [⟨false, List.replicate (c.n - l) 0 ++ data, c.dst⟩],
        ⟨a, data, false⟩, ?_, ?_, rfl⟩
      · rw [map_append, map_shape_call, map_singleton, Copyout.shape]
        dsimp only
        rw [hlen, ← hrcopy]
      · rw [foldl_concat, rcopyout]
        dsimp only
        rw [if_neg (by rintro ⟨⟩), ha, hlen]
        congr 2
        have hskip : c.n - Shape.tail ⟨false, c.n, c.dst⟩ = c.n - l := by
          rw [← htail]
          rfl
        rw [hskip, drop_left' (length_replicate)]

end lost

/-! ## Which calls are delivered -/

section delivered

variable {y : Syscall} {fresh : ℕ × List UInt8} {shapes : List Shape} {cs : List Copyout}

/-- What is sent and stored from the final response, when all calls fit -/
theorem clientStores_fit (y : Syscall) (fresh : ℕ × List UInt8) (hfit : AllFit none (cs.map Copyout.shape)) :
    ∃ sent, clientStores y fresh cs = some (sent ++ finalStores y fresh (cs.foldl rcopyout .start)) ∧
      sent ++ (cs.foldl rcopyout .start).ready = cs.flatMap fun c => stores c.dst c.data :=
  ⟨_, clientStores_eq y fresh cs, (calls_add .start hfit).1⟩

/-- The client gets the bytes of all calls, whatever they are, if and only if every call with `U_RCOPY` fits in
one message and comes when no bytes wait, and the final response brings the bytes that wait at the end and no
others. -/
theorem rcopyout_delivers (y : Syscall) (fresh : ℕ × List UInt8) (shapes : List Shape) :
    (∀ cs : List Copyout, cs.map Copyout.shape = shapes → Delivered y fresh cs) ↔
      AllFit none shapes ∧ y.Brings fresh.2 (shapes.foldl Shape.waits none) := by
  constructor
  · intro h
    have hfit : AllFit none shapes := by
      by_contra hno
      rcases not_allFit hno with ⟨cs, cs', hcs, hcs', hne, hsame⟩ | ⟨⟨l, hl, _⟩, _⟩
      · have heq : clientStores y fresh cs = clientStores y fresh cs' := by
          rw [clientStores, clientStores, hsame]
        rw [(h cs hcs).stored, (h cs' hcs').stored] at heq
        exact hne (Option.some.inj heq)
      · cases hl
    refine ⟨hfit, ?_⟩
    cases hw : shapes.foldl Shape.waits none with
    | none =>
      have hzeros : AllFit none ((shapes.map fun c => c.call 0).map Copyout.shape) :=
        (map_shape_call shapes).symm ▸ hfit
      obtain ⟨sent, hstored, hall⟩ := clientStores_fit y fresh hzeros
      have hwaits := (calls_add .start hzeros).2
      rw [map_shape_call, hw] at hwaits
      have hnone := Option.map_eq_none_iff.mp hwaits
      rw [(h _ (map_shape_call shapes)).stored, ← hall, Serve.ready, finalStores, hnone] at hstored
      have hcancel : stores fresh.1 [] = stores fresh.1 (y.subyte fresh.2) :=
        append_cancel_left (Option.some.inj hstored)
      exact (stores_inj hcancel).symm
    | some l =>
      intro data hdata
      obtain ⟨cs, m, hcs, hm, hmd⟩ := exists_waiting hw data hdata
      have hfit' : AllFit none (cs.map Copyout.shape) := hcs.symm ▸ hfit
      obtain ⟨sent, hstored, hall⟩ := clientStores_fit y fresh hfit'
      rw [(h cs hcs).stored, ← hall, Serve.ready, finalStores, hm] at hstored
      have hcancel := append_cancel_left (Option.some.inj hstored)
      rw [← hmd]
      exact (stores_inj hcancel).symm
  · rintro ⟨hfit, hbrings⟩ cs hcs
    refine ⟨?_, _, Serve.Sync.start.calls.acked⟩
    have hfit' : AllFit none (cs.map Copyout.shape) := hcs.symm ▸ hfit
    obtain ⟨sent, hstored, hall⟩ := clientStores_fit y fresh hfit'
    have hwaits := (calls_add .start hfit').2
    rw [hcs] at hwaits
    rw [hstored, ← hall, finalStores, Serve.ready]
    cases hm : (cs.foldl rcopyout .start).u_copymsg with
    | none =>
      rw [Serve.Waits, hm] at hwaits
      rw [← hwaits] at hbrings
      change some (sent ++ stores fresh.1 (y.subyte fresh.2)) = _
      rw [show y.subyte fresh.2 = [] from hbrings]
      rfl
    | some m =>
      rw [Serve.Waits, hm] at hwaits
      rw [← hwaits] at hbrings
      change some (sent ++ stores m.rp_bufptr (y.reply m.rp_data)) = _
      rw [hbrings m.rp_data rfl]
      rfl

/-- With `U_RCOPY` the client gets the first of two messages twice, and not the second one. -/
theorem ioctl_loses : ¬∀ y fresh cs, Delivered y fresh cs := by
  intro h
  obtain ⟨z, hz⟩ : ∃ z : List UInt8, z.length = DATASIZE := ⟨List.replicate 1024 0, length_replicate⟩
  have hd := (h .other (0, []) [⟨true, z ++ [1], 0⟩]).stored
  have hfill (s : Serve) : s.fill 0 (z ++ [1]) = { s with u_copymsg := some ⟨0, z, false⟩ } := by
    rw [Serve.fill, take_left' hz]
  have hlong : ¬(z ++ [1]).length ≤ DATASIZE := by
    rw [length_append, hz]
    exact Nat.not_succ_le_self _
  have hloop : rcopyout .start ⟨true, z ++ [1], 0⟩ =
      ⟨none, 2, [.send ⟨0, z, false⟩, .send ⟨0, z, false⟩]⟩ := by
    rw [rcopyout]
    dsimp only
    rw [if_pos rfl, hfill, copyLoop, if_neg (append_ne_nil_of_right_ne_nil z (cons_ne_nil 1 [])),
      if_neg (fun hc => hlong hc.2), hfill, drop_left' hz, copyLoop, if_neg (cons_ne_nil 1 []),
      if_pos (by decide)]
    rfl
  rw [clientStores_eq, foldl_cons, foldl_nil, hloop] at hd
  have hcount := congrArg (fun l => (l.map Prod.snd).length) (Option.some.inj hd)
  simp [map_stores, hz, finalStores, Syscall.subyte, Syscall.reply, DATASIZE] at hcount

end delivered

end Svr3.Rfs
