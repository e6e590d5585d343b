import Iptfs.Proofs.ConstantRate
import Iptfs.Proofs.Python.Delivery
import Iptfs.Python.Ingress

/-!
# `Iptfs.Proofs.Python.IngressSimulation`: the Python ingress is a C ingress

The two threads of `tunnel_ingress` take the steps of `read_intf_pkts` and `write_tfs_pkts`, over a
pool of `MAXQSZ` mbufs: the queues and the hands are the same at every step, and so are the
datagrams. `toC` is the state of the C program. Its sequence numbers and offsets are those of the
Python program in 32 and 16 bits. A `readinto` that returns zero is a `read` that fails:
`read_intf_packets` pushes the buffer back, where `read_intf_pkts` would lose it.

What could tell the programs apart are the exceptions of `write_tfs_packet` and the bytes of its
padding. A `sendmsg` that fails ends the thread, and the run has no further steps of it. The
assertion never fails, and `Padded` is what is known of the padding.

* `ingress_simulates` is the simulation. What is proved of the C ingress holds of the Python ingress
  by it.
* `py_ingress_refines`: the threads make calls of `write_tfs_packet`, as `Iptfs.Python.Write` has
  it.
* `py_constant_rate`: nothing but a `sendmsg` that fails holds the sender up, and no mbuf is lost.
-/

set_option autoImplicit false

namespace Iptfs.Py

/-! ### The state of the C program -/

/-- The variables of the loop under their C names. -/
def Wtp.toC (w : Wtp) : Wtfs := ⟨w.mtu, w.m, w.iov, w.freem, w.leftover, w.taken⟩

/-- Where `write_tfs_pkt` is. -/
def TfsWriter.toC : TfsWriter → Iptfs.TfsWriter
  | .call leftover => .call leftover
  | .pack offset w => .pack (offset % 2 ^ 16) w.toC
  | .trypop offset w => .trypop (offset % 2 ^ 16) w.toC 0
  | .send offset w => .send (offset % 2 ^ 16) w.toC
  | .free leftover freem => .free leftover freem

/-- The ingress of the C program. -/
def Ingress.toC (s : Ingress) : Iptfs.Ingress :=
  ⟨s.freeq, s.outq, s.reader, s.writer.toC, s.seq % 2 ^ 32⟩

/-- And with its record. -/
def ObservedIngress.toC (o : ObservedIngress) : Iptfs.ObservedIngress :=
  ⟨o.ingress.toC, o.came, o.answers, o.calls, o.sent⟩

/-- What `read` returns where `readinto` stores these bytes. -/
def readResult (bytes : List UInt8) : Option (List UInt8) :=
  let data := bytes.take (MAXBUF - HDRSPACE)
  if data = [] then none else some data

/-- The step of the C program. -/
def IngressEvent.toC : IngressEvent → Iptfs.IngressEvent
  | .reader bytes => .reader (readResult bytes)
  | .writer sent => .writer sent

/-- The packets that the call of `write_tfs_packet` under way has taken from the queue. -/
def TfsWriter.took : TfsWriter → List Mbuf
  | .pack _ w | .trypop _ w | .send _ w => w.taken
  | .call _ | .free _ _ => []

/-- The step is one of `write_tfs_packets`. -/
def IngressEvent.isWriter : IngressEvent → Bool
  | .writer _ => true
  | .reader _ => false

/-- Each of the `MAXQSZ` mbufs is in one place, once. -/
def Ingress.Conserved (s : Ingress) : Prop := s.toC.places.Perm (List.range MAXQSZ)

/-! ### What the Python program has besides -/

/-- The padding fits in `PADBYTES`. -/
def PadsFit (iov : List Iov) : Prop := ∀ len, Iov.pad len ∈ iov → 8 + len ≤ MAXBUF

/-- The entries that the loop has laid out, where `write_tfs_packet` is in it. -/
def TfsWriter.Padded : TfsWriter → Prop
  | .pack _ w | .trypop _ w | .send _ w => PadsFit w.iov
  | .call _ | .free _ _ => True

namespace Proofs

open Iptfs.Lib
open Iptfs.Proofs (Calls Ready Sized Supplied)

/-- The packet in the hands of the writer is the same one. -/
theorem took_toC (w : TfsWriter) : w.toC.took = w.took := by
  cases w <;> rfl

/-! ### The queues and the loop -/

/-- `trypop` is the `mqueue_trypop` that takes packets of any size. -/
theorem mqueueTrypop_zero (mq : Queue Mbuf) : mqueueTrypop Mbuf.len mq 0 = trypop mq := by
  rw [mqueueTrypop, trypop]
  cases mq.pop with
  | none => rfl
  | some p => exact if_neg fun h => h.1 rfl

/-- A push with a reset, of an mbuf without references. -/
theorem mqueuePushReset_toC {mq : Queue Mbuf} {m : Mbuf} (href : m.refcnt = 0) :
    mqueuePushReset mq m = match pushReset mq m with
      | none => .error .waits
      | some mq => .ok mq := by
  rw [mqueuePushReset, mbufReset, if_pos href]
  rfl

/-- One pass of either loop. -/
theorem packOnce_toC (mtu : Nat) (w : Wtp) :
    Iptfs.packOnce (plain mtu) w.toC =
      ((packOnce w).1.toC, if (packOnce w).2 then some 0 else none) := by
  obtain ⟨room, m, iov, freem, leftover, taken, asks⟩ := w
  cases m with
  | none =>
      have hpad : (if room ≤ 6 then (none : Option Mbuf) else none) = none := ite_self none
      simp only [Iptfs.packOnce, packOnce, Wtp.toC, hpad]
      rfl
  | some m =>
      by_cases hroom : room ≤ 6
      · simp only [Iptfs.packOnce, packOnce, Wtp.toC, hroom, if_true]
        rfl
      · by_cases hlen : m.len > room
        · simp only [Iptfs.packOnce, packOnce, Wtp.toC, hroom, hlen, if_true, if_false]
          rfl
        · simp only [Iptfs.packOnce, packOnce, Wtp.toC, hroom, hlen, if_false, plain]
          by_cases hmore : room - m.len > 6 <;> simp [hmore]

/-- A pass that pads has room for it in `PADBYTES`. -/
theorem padsFit_packOnce {w w' : Wtp} {asks : Bool} (h : PadsFit w.iov) (hmtu : 8 + w.mtu ≤ MAXBUF)
    (honce : packOnce w = (w', asks)) : PadsFit w'.iov := by
  have hpacket : ∀ m n, PadsFit (w.iov ++ [.mbuf m n]) := by
    intro m n len hlen
    rcases List.mem_append.mp hlen with hlen | hlen
    · exact h len hlen
    · cases List.mem_singleton.mp hlen
  rw [packOnce] at honce
  split at honce
  · cases honce
    intro len hlen
    rcases List.mem_append.mp hlen with hlen | hlen
    · exact h len hlen
    · cases List.mem_singleton.mp hlen
      exact hmtu
  · rename_i m hm
    dsimp only at honce
    split at honce
    · cases honce
      exact hpacket m _
    · cases honce
      exact hpacket m _

/-- The datagram is the same, bytes and all. -/
theorem iovBytes_toC {iov : List Iov} (h : PadsFit iov) : iovBytes iov = Iptfs.iovBytes iov := by
  rw [iovBytes, Iptfs.iovBytes]
  congr 1
  apply List.map_congr_left
  intro e he
  cases e with
  | hdr bytes => rfl
  | pad len => exact iovEntry_pad (h len he)
  | mbuf m len => rfl

/-! ### The steps -/

section Step

variable {mtu : Nat} {s t : Ingress} {o p : ObservedIngress}

/-- `readinto` stores no more than `read` would. -/
theorem readResult_cases (bytes : List UInt8) :
    bytes.take (MAXBUF - HDRSPACE) = [] ∧ readResult bytes = none ∨
      ∃ data, bytes.take (MAXBUF - HDRSPACE) = data ∧ data ≠ [] ∧ readResult bytes = some data ∧
        data.take (Iptfs.MAXBUF - Iptfs.HDRSPACE) = data := by
  by_cases hzero : bytes.take (MAXBUF - HDRSPACE) = []
  · exact .inl ⟨hzero, if_pos hzero⟩
  · refine .inr ⟨_, rfl, hzero, if_neg hzero, List.take_of_length_le ?_⟩
    rw [List.length_take]
    exact Nat.le_trans (Nat.min_le_left _ _) (by decide)

/-- A step of `read_intf_packets` is one of `read_intf_pkts`. -/
theorem readIntfStep_toC {bytes : List UInt8}
    (href : ∀ m, s.reader = .pushFree m → m.refcnt = 0) (h : readIntfStep s bytes = .ok t) :
    Iptfs.readIntfStep s.toC (readResult bytes) = .ok t.toC ∧ t.writer = s.writer ∧
      t.seq = s.seq := by
  rw [readIntfStep] at h
  rw [Iptfs.readIntfStep]
  unfold Ingress.toC
  dsimp only
  cases hr : s.reader with
  | pop =>
      simp only [hr] at h
      rw [mqueuePop]
      cases hpop : s.freeq.pop with
      | none =>
          rw [hpop] at h
          cases h
      | some q =>
          rw [hpop] at h
          cases h
          exact ⟨rfl, rfl, rfl⟩
  | read m =>
      simp only [hr] at h
      -- A `readinto` that returns zero is a `read` that fails, and no other result does.
      rcases readResult_cases bytes with ⟨hzero, hnone⟩ | ⟨data, hdata, hne, hsome, htake⟩
      · rw [if_pos hzero] at h
        cases h
        rw [hnone]
        exact ⟨rfl, rfl, rfl⟩
      · rw [hdata, if_neg hne] at h
        cases h
        rw [hsome]
        dsimp only
        rw [htake, if_neg hne]
        exact ⟨rfl, rfl, rfl⟩
  | pushFree m =>
      simp only [hr] at h
      dsimp only
      -- The buffer goes back with its bytes cleared on both sides. Its count is zero.
      rw [mqueuePushReset_toC (href m hr)]
      cases hpush : pushReset s.freeq m with
      | none =>
          rw [hpush] at h
          cases h
      | some q =>
          rw [hpush] at h
          cases h
          exact ⟨rfl, rfl, rfl⟩
  | pushOut m =>
      simp only [hr] at h
      dsimp only [mqueuePush]
      cases hpush : s.outq.push m with
      | none =>
          rw [hpush] at h
          cases h
      | some q =>
          rw [hpush] at h
          cases h
          exact ⟨rfl, rfl, rfl⟩

/-- The Python ingress between two steps: what is known of the C ingress, the entries laid out, and
the calls that are over, each of which has sent its datagram. -/
structure Simulated (mtu : Nat) (o : ObservedIngress) : Prop where
  ready : Ready (plain mtu) MAXQSZ o.toC
  conserved : o.ingress.Conserved
  padded : o.ingress.writer.Padded
  seq : o.ingress.seq = o.calls.length + 1
  sends : ∀ c ∈ o.calls, c.sent = true

/-- Both start with all the mbufs free and with no call made. -/
theorem simulated_init (mtu : Nat) : Simulated mtu .init where
  ready := Iptfs.Proofs.ready_ofPool (plain mtu) MAXQSZ
  conserved := Iptfs.Proofs.places_ofPool MAXQSZ
  padded := trivial
  seq := rfl
  sends := by simp [ObservedIngress.init]

/-- No mbuf has references. -/
theorem Simulated.refcnt (h : Simulated mtu o) {m : Mbuf} (hm : m ∈ o.ingress.toC.mbufs) :
    m.refcnt = 0 := by
  obtain ⟨ptrs, hptrs⟩ := h.ready.pointed
  exact (hptrs.pointed.agrees m hm).1

/-- What a step of `write_tfs_packets` leads to, in both programs. It is within a call, or it sends
the datagram of one. -/
structure Writes (mtu : Nat) (o : ObservedIngress) (sent : Bool) (t : Ingress) : Prop where
  step : writeTfsStep mtu o.ingress sent = .ok t
  toC : Iptfs.writeTfsStep (plain mtu) o.ingress.toC sent = .ok t.toC
  padded : t.writer.Padded
  calls : (o.write mtu sent).calls = o.calls ∧ t.seq = o.ingress.seq ∨
    ∃ c : WriteCall, c.sent = true ∧ (o.write mtu sent).calls = o.calls ++ [c] ∧
      t.seq = o.ingress.seq + 1

/-- A `sendmsg` that fails raises `OSError`. -/
def SendFails (mtu : Nat) (o : ObservedIngress) (sent : Bool) : Prop :=
  sent = false ∧ writeTfsStep mtu o.ingress sent = .error (.raises .os)

/-- A call that begins with the queue empty: the empty datagram is sent in the same step. -/
theorem writes_atEmpty {outq : Queue Mbuf} (hw : o.ingress.writer = .call none)
    (hpop : trypop o.ingress.outq = (none, outq)) (sent : Bool) :
    (∃ t, Writes mtu o sent t) ∨ SendFails mtu o sent := by
  have hstep : writeTfsStep mtu o.ingress sent =
      if sent then .ok { o.ingress with writer := .call none, seq := o.ingress.seq + 1 }
      else .error (.raises .os) := by
    rw [writeTfsStep, hw]
    dsimp only
    rw [hpop]
    cases sent <;> rfl
  cases sent with
  | false => exact .inr ⟨rfl, hstep⟩
  | true =>
      have htoC : o.ingress.toC.writer = .call none := by
        unfold Ingress.toC
        rw [hw]
        rfl
      have hpopC : mqueueTrypop Mbuf.len o.ingress.toC.outq 0 = (none, outq) := by
        rw [mqueueTrypop_zero]
        exact hpop
      refine .inl ⟨_, hstep, ?_, trivial, .inr ⟨⟨[none], true⟩, rfl, ?_, rfl⟩⟩
      · rw [Iptfs.writeTfsStep, htoC]
        dsimp only
        rw [hpopC]
        unfold Ingress.toC
        dsimp only [writeEmptyTfsPkt]
        rw [hw, Nat.mod_add_mod]
        rfl
      · rw [ObservedIngress.write, hw]
        dsimp only
        rw [hpop]

/-- The start of a call. -/
theorem writes_atCall {leftover : Option Mbuf} (hw : o.ingress.writer = .call leftover)
    (sent : Bool) : (∃ t, Writes mtu o sent t) ∨ SendFails mtu o sent := by
  have hnone : PadsFit [] := fun len hlen => by cases hlen
  have htoC : o.ingress.toC.writer = .call leftover := by
    unfold Ingress.toC
    rw [hw]
    rfl
  cases leftover with
  -- With a leftover in hand, the call begins with it and asks nobody.
  | some m =>
      have hstep : writeTfsStep mtu o.ingress sent =
          .ok { o.ingress with writer := .pack m.len (wtpEnter mtu m [] []) } := by
        rw [writeTfsStep, hw]
      refine .inl ⟨_, hstep, ?_, hnone, .inl ⟨?_, rfl⟩⟩
      · rw [Iptfs.writeTfsStep, htoC]
        rfl
      · rw [ObservedIngress.write, hw]
  | none =>
      obtain ⟨m, outq, hpop⟩ : ∃ m outq, trypop o.ingress.outq = (m, outq) := ⟨_, _, rfl⟩
      cases m with
      | none => exact writes_atEmpty hw hpop sent
      | some m =>
          -- `trypop` and the `mqueue_trypop` without a bound find the same packet.
          have hpopC : mqueueTrypop Mbuf.len o.ingress.toC.outq 0 = (some m, outq) := by
            rw [mqueueTrypop_zero]
            exact hpop
          have hstep : writeTfsStep mtu o.ingress sent = .ok { o.ingress with
              outq := outq, writer := .pack 0 (wtpEnter mtu m [m] [mtu]) } := by
            rw [writeTfsStep, hw]
            dsimp only
            rw [hpop]
          refine .inl ⟨_, hstep, ?_, hnone, .inl ⟨?_, rfl⟩⟩
          · rw [Iptfs.writeTfsStep, htoC]
            dsimp only
            rw [hpopC]
            rfl
          · rw [ObservedIngress.write, hw]
            dsimp only
            rw [hpop]

/-- The test of the loop, and a pass of it. -/
theorem Simulated.atPack (hmax : mtu ≤ 9000) (h : Simulated mtu o) {offset : Nat}
    {w : Wtp} (hw : o.ingress.writer = .pack offset w) (sent : Bool) :
    ∃ t, Writes mtu o sent t := by
  have hpadded : PadsFit w.iov := by
    have hp := h.padded
    rwa [hw] at hp
  have hcalls : (o.write mtu sent).calls = o.calls := by
    rw [ObservedIngress.write, hw]
  have htoC : o.ingress.toC.writer = .pack (offset % 2 ^ 16) w.toC := by
    unfold Ingress.toC
    rw [hw]
    rfl
  -- The C loop has at most the whole datagram to fill, and it has the same room.
  have hroom : w.mtu ≤ mtu - 8 := by
    have hr := h.ready.supplied.room
    unfold ObservedIngress.toC at hr
    rwa [htoC] at hr
  -- The datagram is full, or there is one more pass, and then the queue is asked or not.
  by_cases hmtu : w.mtu = 0
  · have hstep : writeTfsStep mtu o.ingress sent =
        .ok { o.ingress with writer := .send offset w } := by
      rw [writeTfsStep, hw]
      dsimp only
      rw [if_pos hmtu]
    refine ⟨_, hstep, ?_, hpadded, .inl ⟨hcalls, rfl⟩⟩
    have hmtuC : w.toC.mtu = 0 := hmtu
    rw [Iptfs.writeTfsStep, htoC]
    dsimp only
    rw [if_pos hmtuC]
    rfl
  · have hmtuC : ¬ w.toC.mtu = 0 := hmtu
    obtain ⟨w', asks, honce⟩ : ∃ w' asks, packOnce w = (w', asks) := ⟨_, _, rfl⟩
    have honceC := packOnce_toC mtu w
    rw [honce] at honceC
    -- The padding of one datagram is within the zeros that the module keeps for it.
    have hfits : 8 + w.mtu ≤ MAXBUF := by
      unfold MAXBUF HDRSPACE
      omega
    have hpads := padsFit_packOnce hpadded hfits honce
    cases asks with
    | false =>
        have hstep : writeTfsStep mtu o.ingress sent =
            .ok { o.ingress with writer := .pack offset w' } := by
          rw [writeTfsStep, hw]
          dsimp only
          rw [if_neg hmtu, honce]
        refine ⟨_, hstep, ?_, hpads, .inl ⟨hcalls, rfl⟩⟩
        rw [Iptfs.writeTfsStep, htoC]
        dsimp only
        rw [if_neg hmtuC, honceC]
        rfl
    | true =>
        have hstep : writeTfsStep mtu o.ingress sent =
            .ok { o.ingress with writer := .trypop offset w' } := by
          rw [writeTfsStep, hw]
          dsimp only
          rw [if_neg hmtu, honce]
        refine ⟨_, hstep, ?_, hpads, .inl ⟨hcalls, rfl⟩⟩
        rw [Iptfs.writeTfsStep, htoC]
        dsimp only
        rw [if_neg hmtuC, honceC]
        rfl

/-- The `trypop` at the end of a pass. -/
theorem Simulated.atTrypop (h : Simulated mtu o) {offset : Nat} {w : Wtp}
    (hw : o.ingress.writer = .trypop offset w) (sent : Bool) : ∃ t, Writes mtu o sent t := by
  have hpadded : PadsFit w.iov := by
    have hp := h.padded
    rwa [hw] at hp
  have htoC : o.ingress.toC.writer = .trypop (offset % 2 ^ 16) w.toC 0 := by
    unfold Ingress.toC
    rw [hw]
    rfl
  obtain ⟨m, outq, hpop⟩ : ∃ m outq, trypop o.ingress.outq = (m, outq) := ⟨_, _, rfl⟩
  have hpopC : mqueueTrypop Mbuf.len o.ingress.toC.outq 0 = (m, outq) := by
    rw [mqueueTrypop_zero]
    exact hpop
  have hstep : writeTfsStep mtu o.ingress sent =
      .ok { o.ingress with outq := outq, writer := .pack offset (w.take m) } := by
    rw [writeTfsStep, hw]
    dsimp only
    rw [hpop]
  refine ⟨_, hstep, ?_, hpadded, .inl ⟨?_, rfl⟩⟩
  · rw [Iptfs.writeTfsStep, htoC]
    dsimp only
    rw [hpopC]
    rfl
  · rw [ObservedIngress.write, hw]

/-- The `sendmsg`. -/
theorem Simulated.atSend (h15 : 14 < mtu) (hmax : mtu ≤ 9000) (h : Simulated mtu o) {offset : Nat}
    {w : Wtp} (hw : o.ingress.writer = .send offset w) (sent : Bool) :
    (∃ t, Writes mtu o sent t) ∨ SendFails mtu o sent := by
  have hstep : writeTfsStep mtu o.ingress sent =
      if sent then .ok { o.ingress with
        seq := o.ingress.seq + 1, writer := .free w.leftover w.freem }
      else .error (.raises .os) := by
    rw [writeTfsStep, hw]
  cases sent with
  | false => exact .inr ⟨rfl, hstep⟩
  | true =>
      have htoC : o.ingress.toC.writer = .send (offset % 2 ^ 16) w.toC := by
        unfold Ingress.toC
        rw [hw]
        rfl
      have hlen : iovlen (.hdr (wtfsHdr o.ingress.toC.seq (offset % 2 ^ 16)) :: w.toC.iov) =
          (plain mtu).tfsmtu := by
        refine h.ready.iovlen_eq ?_ ?_ htoC
        · show 8 < mtu
          omega
        · show mtu ≤ 8192 + 1024
          omega
      refine .inl ⟨_, hstep, ?_, trivial, .inr ⟨⟨o.answers, true⟩, rfl, ?_, rfl⟩⟩
      · rw [Iptfs.writeTfsStep, htoC]
        dsimp only
        rw [if_neg (not_not.mpr hlen)]
        unfold Ingress.toC
        rw [Nat.mod_add_mod]
        rfl
      · rw [ObservedIngress.write, hw]

/-- The loop after `sendmsg`, in which the packed buffers are freed. -/
theorem Simulated.atFree (h : Simulated mtu o) {leftover : Option Mbuf} {freem : List Mbuf}
    (hw : o.ingress.writer = .free leftover freem) (sent : Bool) : ∃ t, Writes mtu o sent t := by
  have htoC : o.ingress.toC.writer = .free leftover freem := by
    unfold Ingress.toC
    rw [hw]
    rfl
  have hcalls : (o.write mtu sent).calls = o.calls := by
    rw [ObservedIngress.write, hw]
  cases freem with
  | nil =>
      -- `assert leftover.len() > 0` holds.
      have hsound : ¬ (leftover.any fun m => m.len = 0) = true := by
        cases leftover with
        | none => exact Bool.false_ne_true
        | some m =>
            have hm : Sized m := by
              refine h.ready.supplied.sized m ?_
              unfold ObservedIngress.toC
              rw [htoC]
              exact List.mem_singleton_self m
            have hpos := hm.len_pos
            simp only [Option.any_some, decide_eq_true_eq]
            omega
      have hstep : writeTfsStep mtu o.ingress sent =
          .ok { o.ingress with writer := .call leftover } := by
        rw [writeTfsStep, hw]
        dsimp only
        rw [if_neg hsound]
      refine ⟨_, hstep, ?_, trivial, .inl ⟨hcalls, rfl⟩⟩
      rw [Iptfs.writeTfsStep, htoC]
      rfl
  | cons m freem =>
      have href : m.refcnt = 0 := by
        refine h.refcnt ?_
        simp [Iptfs.Ingress.mbufs, htoC, Iptfs.TfsWriter.mbufs]
      obtain ⟨freeq, hpushC⟩ := h.ready.pushReset htoC
      have hpush : pushReset o.ingress.freeq m = some freeq := by
        have hboth := hpushC
        unfold ObservedIngress.toC Ingress.toC at hboth
        rw [mqueuePushReset_toC href] at hboth
        split at hboth
        · cases hboth
        · rename_i q hq
          rw [hq]
          exact congrArg some (Except.ok.inj hboth)
      have hstep : writeTfsStep mtu o.ingress sent =
          .ok { o.ingress with freeq := freeq, writer := .free leftover freem } := by
        rw [writeTfsStep, hw]
        dsimp only
        rw [hpush]
      refine ⟨_, hstep, ?_, trivial, .inl ⟨hcalls, rfl⟩⟩
      rw [Iptfs.writeTfsStep, htoC]
      dsimp only
      unfold ObservedIngress.toC at hpushC
      rw [hpushC]
      rfl

/-- A step of `write_tfs_packets` does not wait, and it is one of `write_tfs_pkts`, unless it is a
`sendmsg` that fails: the only exception is the `OSError` of that. -/
theorem Simulated.writes (h15 : 14 < mtu) (hmax : mtu ≤ 9000) (h : Simulated mtu o) (sent : Bool) :
    (∃ t, Writes mtu o sent t) ∨ SendFails mtu o sent := by
  cases hw : o.ingress.writer with
  | call leftover => exact writes_atCall hw sent
  | pack offset w => exact .inl (h.atPack hmax hw sent)
  | trypop offset w => exact .inl (h.atTrypop hw sent)
  | send offset w => exact h.atSend h15 hmax hw sent
  | free leftover freem => exact .inl (h.atFree hw sent)

/-- The calls that are over after a step. -/
theorem Writes.over {sent : Bool} {t : Ingress} (ht : Writes mtu o sent t) (h : Simulated mtu o) :
    t.seq = (o.write mtu sent).calls.length + 1 ∧
      ∀ c ∈ (o.write mtu sent).calls, c.sent = true := by
  rcases ht.calls with ⟨hcalls, hseq⟩ | ⟨c, hc, hcalls, hseq⟩
  · rw [hcalls, hseq]
    exact ⟨h.seq, h.sends⟩
  · rw [hcalls, hseq, h.seq, List.length_append]
    refine ⟨rfl, fun d hd => ?_⟩
    rcases List.mem_append.mp hd with hd | hd
    · exact h.sends d hd
    · cases List.mem_singleton.mp hd
      exact hc

/-- Both programs hand the same datagrams to the socket, and the rest of the record is the same. -/
theorem Simulated.write_toC (hmax : mtu ≤ 9000) (h : Simulated mtu o) (sent : Bool) (t : Ingress) :
    ({ o.write mtu sent with ingress := t } : ObservedIngress).toC =
      { o.toC.write (plain mtu) sent with ingress := t.toC } := by
  unfold ObservedIngress.write Iptfs.ObservedIngress.write ObservedIngress.toC Ingress.toC
  cases hw : o.ingress.writer with
  | call leftover =>
      cases leftover with
      | some m => rfl
      | none =>
          dsimp only [TfsWriter.toC]
          rw [mqueueTrypop_zero]
          cases (trypop o.ingress.outq).1 with
          | some m => rfl
          | none =>
              dsimp only
              rw [emptyTunnelPacket_eq o.ingress.seq hmax]
              rfl
  | pack offset w => rfl
  | trypop offset w =>
      dsimp only [TfsWriter.toC]
      rw [mqueueTrypop_zero]
  | send offset w =>
      have hpadded := h.padded
      rw [hw] at hpadded
      have hpads :
          PadsFit (.hdr (wtfsHdr (o.ingress.seq % 2 ^ 32) (offset % 2 ^ 16)) :: w.iov) := by
        intro len hlen
        cases hlen with
        | tail _ hmem => exact hpadded len hmem
      dsimp only [TfsWriter.toC]
      rw [hdr_eq, iovBytes_toC hpads]
      rfl
  | free leftover freem => rfl

/-- No step loses a buffer, as one of the C ingress may. -/
theorem keeps_toC (h15 : 14 < mtu) (s : Iptfs.Ingress) (e : IngressEvent) :
    Keeps (plain mtu) s e.toC := by
  cases e with
  | reader bytes =>
      intro m _
      rcases readResult_cases bytes with ⟨-, hnone⟩ | ⟨data, -, hne, hsome, -⟩
      · rw [hnone]
        exact Option.some_ne_none _ |>.symm
      · rw [hsome]
        exact fun h => hne (Option.some.inj h)
  | writer sent => exact fun _ _ _ => h15

/-- What the step of the C ingress keeps. -/
theorem Simulated.keep (h15 : 14 < mtu) (h : Simulated mtu o) {e : IngressEvent}
    (hC : Iptfs.observedIngressStep (plain mtu) o.toC e.toC = .ok p.toC) :
    Ready (plain mtu) MAXQSZ p.toC ∧ p.ingress.Conserved := by
  refine ⟨h.ready.step hC, ?_⟩
  obtain ⟨ptrs, hptrs⟩ := h.ready.pointed
  obtain ⟨-, lost, hperm, hlost⟩ := (Iptfs.Proofs.ingress_moves (plain mtu)).step_ok _ _ _
    hptrs.held (Iptfs.Proofs.observedIngressStep_ingress hC)
  rw [hlost.mp (keeps_toC h15 _ e), List.nil_append] at hperm
  exact hperm.symm.trans h.conserved

/-- A step of the Python ingress is one of the C ingress. -/
theorem Simulated.step (h15 : 14 < mtu) (hmax : mtu ≤ 9000) (h : Simulated mtu o) {e : IngressEvent}
    (hstep : observedIngressStep mtu o e = .ok p) :
    Iptfs.observedIngressStep (plain mtu) o.toC e.toC = .ok p.toC ∧ Simulated mtu p := by
  cases e with
  | reader bytes =>
      rw [observedIngressStep, ingressStep] at hstep
      cases hread : readIntfStep o.ingress bytes with
      | error f =>
          rw [hread] at hstep
          cases hstep
      | ok t =>
          rw [hread] at hstep
          cases hstep
          have href : ∀ m, o.ingress.reader = .pushFree m → m.refcnt = 0 := by
            intro m hr
            refine h.refcnt ?_
            simp [Ingress.toC, Iptfs.Ingress.mbufs, hr, IntfReader.mbufs]
          obtain ⟨hC, hwriter, hseq⟩ := readIntfStep_toC href hread
          have hrecord : ({ o.read with ingress := t } : ObservedIngress).toC =
              { o.toC.read with ingress := t.toC } := by
            unfold ObservedIngress.read Iptfs.ObservedIngress.read ObservedIngress.toC Ingress.toC
            cases o.ingress.reader <;> rfl
          have hcalls : o.read.calls = o.calls := by
            unfold ObservedIngress.read
            cases o.ingress.reader <;> rfl
          have hobserved :
              Iptfs.observedIngressStep (plain mtu) o.toC (IngressEvent.reader bytes).toC =
                .ok ({ o.read with ingress := t } : ObservedIngress).toC := by
            have hCstep : Iptfs.ingressStep (plain mtu) o.toC.ingress (.reader (readResult bytes)) =
                .ok t.toC := hC
            rw [hrecord, IngressEvent.toC, Iptfs.observedIngressStep, hCstep]
          obtain ⟨hready, hconserved⟩ := h.keep h15 hobserved
          refine ⟨hobserved, hready, hconserved, ?_, ?_, ?_⟩
          · show t.writer.Padded
            rw [hwriter]
            exact h.padded
          · show t.seq = o.read.calls.length + 1
            rw [hseq, hcalls]
            exact h.seq
          · show ∀ c ∈ o.read.calls, c.sent = true
            rw [hcalls]
            exact h.sends
  | writer sent =>
      rcases h.writes h15 hmax sent with ⟨t, ht⟩ | ⟨-, hfails⟩
      -- A `sendmsg` that fails is no step of the run.
      case inr =>
        rw [observedIngressStep, ingressStep, hfails] at hstep
        cases hstep
      rw [observedIngressStep, ingressStep, ht.step] at hstep
      cases hstep
      have hobserved : Iptfs.observedIngressStep (plain mtu) o.toC (IngressEvent.writer sent).toC =
          .ok ({ o.write mtu sent with ingress := t } : ObservedIngress).toC := by
        have hCstep : Iptfs.ingressStep (plain mtu) o.toC.ingress (.writer sent) = .ok t.toC :=
          ht.toC
        rw [h.write_toC hmax, IngressEvent.toC, Iptfs.observedIngressStep, hCstep]
      obtain ⟨hready, hconserved⟩ := h.keep h15 hobserved
      exact ⟨hobserved, hready, hconserved, ht.padded, (ht.over h).1, (ht.over h).2⟩

/-- The induction over a run: it is one of the C ingress, and it ends in the image. -/
theorem Simulated.run (h15 : 14 < mtu) (hmax : mtu ≤ 9000) (h : Simulated mtu o)
    {es : List IngressEvent} (hrun : Lib.run (observedIngressStep mtu) o es = .ok p) :
    Lib.run (Iptfs.observedIngressStep (plain mtu)) o.toC (es.map IngressEvent.toC) = .ok p.toC ∧
      Simulated mtu p :=
  run_image (fun _ _ _ hs hst => hs.step h15 hmax hst) h hrun

/-- The invariant holds in every state that the two threads reach. -/
theorem simulated_of_reachable (h15 : 14 < mtu) (hmax : mtu ≤ 9000)
    (h : Reachable (observedIngressStep mtu) .init o) : Simulated mtu o := by
  obtain ⟨es, hrun⟩ := h
  exact ((simulated_init mtu).run h15 hmax hrun).2

/-- The datagrams do not depend on the record of the sequence numbers. -/
theorem handed_wrap (s : Sender) : (wrap s).handed = s.handed := by
  unfold Sender.handed
  rw [sends_wrap, List.map_map]
  rfl

/-- The calls that the threads have made. -/
theorem Simulated.calls (h15 : 14 < mtu) (hmax : mtu ≤ 9000) (h : Simulated mtu o) :
    ∃ s, Lib.run (writeTfsPacketsStep mtu) Sender.init o.calls = .ok s ∧
      s.seq = o.ingress.seq ∧ Calls (plain mtu) o.toC (wrap s) := by
  obtain ⟨sC, hC⟩ := h.ready.calls
  obtain ⟨s, hs, hseq⟩ := calls_ok h15 hmax h.sends Sender.init
  -- The calls of the C program are the same ones.
  have hwrap : wrap s = sC := Except.ok.inj ((run_wrap h15 hmax hs).symm.trans hC.ran)
  rw [← hwrap] at hC
  refine ⟨s, hs, ?_, hC⟩
  rw [hseq, h.seq]
  exact Nat.add_comm _ _

/-- Each datagram in the record went out: `write_tfs_packets` does not go on after a `sendmsg` that
failed. -/
theorem Simulated.succeeded (h : Simulated mtu o) : ∀ d ∈ o.sent, d.2 = true := by
  obtain ⟨s, hC⟩ := h.ready.calls
  intro d hd
  have hhanded : d ∈ s.handed := by
    rw [hC.handed]
    exact hd
  obtain ⟨c, hc, rfl⟩ := List.mem_map.mp hhanded
  have hmade : c.1 ∈ s.calls.map Prod.fst := List.mem_map_of_mem (List.mem_of_mem_filter hc)
  rw [Iptfs.Proofs.calls_of_run hC.ran] at hmade
  exact h.sends c.1 hmade

/-- What they have taken from the queue. -/
theorem took_wrap {s : Sender} (hC : Calls (plain mtu) o.toC (wrap s)) :
    (s.taken ++ (o.ingress.writer.took ++ o.ingress.outq.queue)).Perm o.came := by
  have htook := hC.took
  have hway : o.toC.ingress.writer.took = o.ingress.writer.took := took_toC o.ingress.writer
  unfold Sender.taken wrap at htook
  rw [List.map_map, hway] at htook
  exact htook

end Step

/-- The Python ingress is a C ingress. Every run of `read_intf_packets` and `write_tfs_packets`, in
any interleaving, is step for step a run of `read_intf_pkts` and `write_tfs_pkts` over a pool of
`MAXQSZ` mbufs, with the same queues, the same mbufs in the hands of the threads, the same answers
of `trypop` and the same datagrams, byte for byte. -/
theorem ingress_simulates (mtu : Nat) (h15 : 14 < mtu) (hmax : mtu ≤ 9000) (es : List IngressEvent)
    (o : ObservedIngress) (hrun : run (observedIngressStep mtu) .init es = .ok o) :
    run (Iptfs.observedIngressStep (plain mtu)) (.ofPool MAXQSZ) (es.map IngressEvent.toC) =
      .ok o.toC :=
  ((simulated_init mtu).run h15 hmax hrun).1

/-- A `readinto` that returns zero, and then a packet that is read and sent. Two more are read, and
the call under way has taken the later one. -/
def readAndWrite : List IngressEvent :=
  let read (bytes : List UInt8) : List IngressEvent := [.reader [], .reader bytes, .reader []]
  let turn : IngressEvent := .writer true
  read [] ++ read [0x45, 0, 0, 5, 1] ++ [turn, turn] ++ read [0x45, 0, 0, 5, 2] ++
    [turn, turn, turn, turn] ++ read [0x45, 0, 0, 5, 3] ++ [turn, turn, turn]

/-- Where it ends. -/
theorem readAndWrite_ends : ∃ o, run (observedIngressStep 19) .init readAndWrite = .ok o ∧
    o.sent = [([0, 0, 0, 1, 0, 0, 0, 0, 0x45, 0, 0, 5, 1, 0, 0, 0, 0, 0, 0], true)] ∧
    o.ingress.writer.took.map Mbuf.data = [[0x45, 0, 0, 5, 3]] := by
  have hends : (run (observedIngressStep 19) .init readAndWrite).map
      (fun o => (o.sent, o.ingress.writer.took.map Mbuf.data)) =
        .ok ([([0, 0, 0, 1, 0, 0, 0, 0, 0x45, 0, 0, 5, 1, 0, 0, 0, 0, 0, 0], true)],
          [[0x45, 0, 0, 5, 3]]) := by decide +kernel
  obtain ⟨o, ho, hpair⟩ := map_eq_ok.mp hends
  obtain ⟨hsent, htook⟩ := Prod.mk.inj hpair
  exact ⟨o, ho, hsent, htook⟩

/-- Applied to a run in which one datagram is sent and another call is under way. -/
theorem ingress_simulates_three : ∃ o, run (observedIngressStep 19) .init readAndWrite = .ok o ∧
    o.sent = [([0, 0, 0, 1, 0, 0, 0, 0, 0x45, 0, 0, 5, 1, 0, 0, 0, 0, 0, 0], true)] ∧
    run (Iptfs.observedIngressStep (plain 19)) (.ofPool MAXQSZ)
      (readAndWrite.map IngressEvent.toC) = .ok o.toC := by
  obtain ⟨o, ho, hsent, -⟩ := readAndWrite_ends
  exact ⟨o, ho, hsent, ingress_simulates 19 (by decide) (by decide) readAndWrite o ho⟩

/-- Whatever the order of the steps, the two threads make calls of `write_tfs_packet`: run one after
the other, with the answers that the queue gave, they hand the same datagrams to the socket. Each
packet that `read_intf_packets` has read was taken by exactly one of the calls, the one under way
included, or it is still on the queue. -/
theorem py_ingress_refines (mtu : Nat) (h15 : 14 < mtu) (hmax : mtu ≤ 9000) (o : ObservedIngress)
    (h : Reachable (observedIngressStep mtu) .init o) :
    ∃ s, run (writeTfsPacketsStep mtu) Sender.init o.calls = .ok s ∧
      s.seq = o.ingress.seq ∧
      s.sends.map (fun c => (c.2.datagram.getD [], c.1.sent)) = o.sent ∧
      (∀ leftover, o.ingress.writer = .call leftover → s.leftover = leftover) ∧
      (s.taken ++ (o.ingress.writer.took ++ o.ingress.outq.queue)).Perm o.came := by
  have hsim := simulated_of_reachable h15 hmax h
  obtain ⟨s, hs, hseq, hC⟩ := hsim.calls h15 hmax
  refine ⟨s, hs, hseq, ?_, ?_, took_wrap hC⟩
  · show s.handed = o.sent
    rw [← handed_wrap]
    exact hC.handed
  · intro leftover hw
    have hrest := hC.rest
    unfold ObservedIngress.toC Ingress.toC at hrest
    rw [hw] at hrest
    exact hrest

/-- The same run, with the calls that it is made of. -/
theorem py_ingress_refines_three : ∃ o s, run (observedIngressStep 19) .init readAndWrite = .ok o ∧
    o.ingress.writer.took.map Mbuf.data = [[0x45, 0, 0, 5, 3]] ∧
    run (writeTfsPacketsStep 19) Sender.init o.calls = .ok s ∧
    s.sends.map (fun c => (c.2.datagram.getD [], c.1.sent)) = o.sent ∧
    (s.taken ++ (o.ingress.writer.took ++ o.ingress.outq.queue)).Perm o.came := by
  obtain ⟨o, ho, -, htook⟩ := readAndWrite_ends
  obtain ⟨s, hs, -, hhanded, -, hperm⟩ :=
    py_ingress_refines 19 (by decide) (by decide) o ⟨_, ho⟩
  exact ⟨o, s, ho, htook, hs, hhanded, hperm⟩

/-- Nothing but the socket holds the sender up. Whatever `read_intf_packets` does,
`write_tfs_packets` never waits, and the only exception that it raises is the `OSError` of a
`sendmsg` that fails. While none fails, among any `n * (MAXQSZ + 2 * mtu)` of its steps at least `n`
hand a datagram to the socket, and every datagram has the size of the tunnel and the next sequence
number. No mbuf is lost, also where the thread has ended: those in its hands stay there. -/
theorem py_constant_rate (mtu : Nat) (h15 : 14 < mtu) (hmax : mtu ≤ 9000) (o : ObservedIngress)
    (h : Reachable (observedIngressStep mtu) .init o) :
    (∃ p, observedIngressStep mtu o (.writer true) = .ok p) ∧
      ((∃ p, observedIngressStep mtu o (.writer false) = .ok p) ∨
        observedIngressStep mtu o (.writer false) = .error (.raises .os)) ∧
      (∀ n es p, run (observedIngressStep mtu) o es = .ok p →
        n * (MAXQSZ + 2 * mtu) ≤ es.countP IngressEvent.isWriter →
          o.sent.length + n ≤ p.sent.length) ∧
      (∀ i d, o.sent[i]? = some d → ∃ offset payload,
        d.1 = put32 (i + 1) ++ put16 0 ++ put16 offset ++ payload ∧ offset < 2 ^ 16 ∧
          payload.length = mtu - 8) ∧
      o.ingress.Conserved := by
  have hsim := simulated_of_reachable h15 hmax h
  have h9 : 8 < (plain mtu).tfsmtu := by
    show 8 < mtu
    omega
  have hmaxC : (plain mtu).tfsmtu ≤ Iptfs.MAXBUF := by
    show mtu ≤ 8192 + 1024
    omega
  have hstep : ∀ {sent : Bool} {t : Ingress}, Writes mtu o sent t →
      ∃ p, observedIngressStep mtu o (.writer sent) = .ok p := by
    intro sent t ht
    exact ⟨_, by rw [observedIngressStep, ingressStep, ht.step]⟩
  refine ⟨?_, ?_, ?_, ?_, hsim.conserved⟩
  · rcases hsim.writes h15 hmax true with ⟨t, ht⟩ | ⟨hfalse, -⟩
    · exact hstep ht
    · cases hfalse
  · rcases hsim.writes h15 hmax false with ⟨t, ht⟩ | ⟨-, hfails⟩
    · exact .inl (hstep ht)
    · exact .inr (by rw [observedIngressStep, ingressStep, hfails])
  · intro n es p hrun hn
    -- The turns of the writer are the same events in the C run.
    have hcount : (es.map IngressEvent.toC).countP Iptfs.IngressEvent.isWriter =
        es.countP IngressEvent.isWriter := by
      rw [List.countP_map]
      congr 1
      funext e
      cases e <;> rfl
    rw [← hcount] at hn
    exact (Iptfs.Proofs.paced h9 rfl).often hsim.ready (hsim.run h15 hmax hrun).1 hn
  · intro i d hd
    -- The datagram is that of the C run. Its header is put together from two halves here.
    obtain ⟨offset, payload, hbytes, hlt, hlen⟩ := hsim.ready.sent_eq h9 hmaxC hd
    refine ⟨offset, payload, ?_, hlt, hlen⟩
    rw [hdr_eq, Nat.mod_eq_of_lt hlt]
    exact hbytes

/-- After `readAndWrite` only `write_tfs_packets` runs. -/
theorem py_constant_rate_turns : ∃ o p,
    run (observedIngressStep 19) .init readAndWrite = .ok o ∧
      run (observedIngressStep 19) o (List.replicate 70 (.writer true)) = .ok p ∧
      o.sent.length + 1 ≤ p.sent.length ∧
      (∃ offset payload,
        [0, 0, 0, 1, 0, 0, 0, 0, 0x45, 0, 0, 5, 1, 0, 0, 0, 0, 0, 0] =
          put32 (0 + 1) ++ put16 0 ++ put16 offset ++ payload ∧ payload.length = 11) ∧
      o.ingress.Conserved := by
  obtain ⟨o, ho, hsent, -⟩ := readAndWrite_ends
  have hmore : ∃ p, run (observedIngressStep 19) .init
      (readAndWrite ++ List.replicate 70 (.writer true)) = .ok p := by
    have hends : (run (observedIngressStep 19) .init
        (readAndWrite ++ List.replicate 70 (.writer true))).map (fun p => p.sent.length) =
          .ok 61 := by decide +kernel
    obtain ⟨p, hp, -⟩ := map_eq_ok.mp hends
    exact ⟨p, hp⟩
  obtain ⟨p, hp⟩ := hmore
  obtain ⟨o', ho', hrun⟩ := run_append.mp hp
  obtain rfl : o' = o := Except.ok.inj (ho'.symm.trans ho)
  obtain ⟨-, -, hpaced, hsize, hconserved⟩ :=
    py_constant_rate 19 (by decide) (by decide) o' ⟨_, ho⟩
  have hzero : o'.sent[0]? =
      some ([0, 0, 0, 1, 0, 0, 0, 0, 0x45, 0, 0, 5, 1, 0, 0, 0, 0, 0, 0], true) := by
    rw [hsent]
    rfl
  obtain ⟨offset, payload, heq, -, hlen⟩ := hsize 0 _ hzero
  have hturns : 1 * (MAXQSZ + 2 * 19) ≤
      (List.replicate 70 (IngressEvent.writer true)).countP IngressEvent.isWriter := by
    rw [List.countP_replicate]
    decide
  exact ⟨o', p, ho, hrun, hpaced 1 _ p hrun hturns, ⟨offset, payload, heq, hlen⟩, hconserved⟩

end Proofs

end Iptfs.Py
