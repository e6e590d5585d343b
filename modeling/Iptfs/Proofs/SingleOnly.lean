import Iptfs.Lib.Run
import Iptfs.Model.Ingress
import Iptfs.Proofs.IngressBuffers
import Iptfs.Proofs.Format

/-!
# `Iptfs.Proofs.SingleOnly`: what single-only mode leaves pending

In single-only mode `write_tfs_pkts` calls `mqueue_wait` before each call of `write_tfs_pkt`. The
wait looks at the outq alone. What is left of a packet that was cut is in `leftover`, and stays
there until another packet is pushed.

`Single` is the ingress with what went through it: the packets pushed on the outq, the bytes
popped from it, and the bytes that went with a `sendmsg`. `Pending` is the invariant of the writer
when all packets fit in a datagram. `serves` and `strands` are the runs that show that they have
to. `nothingPending_iff` is the main result: no interleaving strands a byte exactly when each
packet fits.
-/

set_option autoImplicit false

namespace Iptfs

/-- A packet that `read` can return: not empty, and no longer than what a buffer has room for. -/
structure IntfPacket where
  bytes : List UInt8
  ne_nil : bytes ≠ []
  length_le : bytes.length ≤ MAXBUF - HDRSPACE

/-- The ingress, the packets pushed on the outq so far, the bytes of those popped, and the bytes
handed to `sendmsg`. What is dropped after a `sendmsg` that failed counts as handed to it. -/
structure Single where
  ingress : Ingress
  pushed : List (List UInt8)
  popped : List UInt8
  handed : List UInt8

/-- The ingress before either thread has taken a step. -/
def Single.init : Single := ⟨.init, [], [], []⟩

/-- What a step of `read_intf_pkts` pushes on the outq. -/
def IntfReader.pushes : IntfReader → List (List UInt8)
  | .pushOut m => [m.data]
  | _ => []

/-- What a step of `write_tfs_pkts` pops from the outq. -/
def TfsWriter.pops (outq : Queue Mbuf) : TfsWriter → List UInt8
  | .call none => (mqueueTrypop Mbuf.len outq 0).1.toList.flatMap Mbuf.data
  | .trypop _ _ maxsize => (mqueueTrypop Mbuf.len outq maxsize).1.toList.flatMap Mbuf.data
  | _ => []

/-- What a step of `write_tfs_pkts` hands to `sendmsg`. -/
def TfsWriter.handsOver (sent : Bool) : TfsWriter → List UInt8
  | .send _ l =>
      iovData l.iov ++ if sent then [] else l.leftover.toList.flatMap Mbuf.data
  | _ => []

/-- One step of the ingress, with the record of the bytes. -/
def singleStep (cfg : Config) (s : Single) (e : IngressEvent) : Except Stop Single :=
  match ingressStep cfg s.ingress e with
  | .error stop => .error stop
  | .ok t =>
      match e with
      | .reader _ => .ok { s with ingress := t, pushed := s.pushed ++ s.ingress.reader.pushes }
      | .writer sent =>
          .ok { s with
            ingress := t
            popped := s.popped ++ s.ingress.writer.pops s.ingress.outq
            handed := s.handed ++ s.ingress.writer.handsOver sent }

/-- `write_tfs_pkts` is in `mqueue_wait`, with `leftover`. -/
def Single.Waiting (s : Single) (leftover : Option Mbuf) : Prop :=
  s.ingress.writer = .call leftover ∧ s.ingress.outq.queue = []

/-- Whoever waits has nothing left to send: no leftover, and all bytes popped were handed over. -/
def Single.NothingPending (s : Single) : Prop :=
  ∀ leftover, s.Waiting leftover → leftover = none ∧ s.popped = s.handed

/-- The packet is sent in one datagram: it fits, in a datagram that has room for any. With less
than the header no datagram is sent at all. -/
def FitsDatagram (cfg : Config) (packet : List UInt8) : Prop :=
  cfg.tfsmtu < 8 ∨ (14 < cfg.tfsmtu ∧ packet.length ≤ cfg.tfsmtu - 8)

instance (cfg : Config) (packet : List UInt8) : Decidable (FitsDatagram cfg packet) :=
  instDecidableOr

namespace Proofs

open Iptfs.Lib

/-! ### The entries -/

/-- The data of a gather list that is made in two parts. -/
@[simp] theorem iovData_append (iov iov' : List Iov) :
    iovData (iov ++ iov') = iovData iov ++ iovData iov' := by
  simp [iovData]

/-- Padding is no data. -/
@[simp] theorem iovData_pad (len : Nat) : iovData [.pad len] = [] := rfl

/-- An entry that points at the whole packet has its data. -/
@[simp] theorem iovData_mbuf (m : Mbuf) : iovData [.mbuf m m.len] = m.data := by
  simp [iovData, Iov.data, Mbuf.len]

/-- The header is there whatever the entries are. -/
theorem le_iovlen (seq offset : Nat) (iov : List Iov) :
    8 ≤ iovlen (.hdr (wtfsHdr seq offset) :: iov) := by
  have hhdr : (Iov.hdr (wtfsHdr seq offset)).len = 8 := rfl
  simp only [iovlen, List.map_cons, List.sum_cons, hhdr]
  exact Nat.le_add_right _ _

/-! ### The invariant -/

/-- What the packing loop holds when all packets fit: there is no leftover, every byte is in an
entry or in `m`, and `m` has room. -/
structure Whole (cfg : Config) (popped handed : List UInt8) (l : Wtfs) : Prop where
  leftover : l.leftover = none
  bytes : popped = handed ++ iovData l.iov ++ l.m.toList.flatMap Mbuf.data
  room : 8 ≤ cfg.tfsmtu → ∀ m, l.m = some m → 6 < l.mtu ∧ m.len ≤ l.mtu
  headless : cfg.tfsmtu < 8 → l.mtu = 0

/-- Where the writer is when all packets fit. -/
def Pending (cfg : Config) (popped handed : List UInt8) : TfsWriter → Prop
  | .call leftover => leftover = none ∧ popped = handed
  | .pack _ l => Whole cfg popped handed l
  | .trypop _ _ _ => False
  | .send _ l => l.leftover = none ∧ (8 ≤ cfg.tfsmtu → popped = handed ++ iovData l.iov)
  | .free leftover _ => leftover = none ∧ popped = handed

/-- The outq holds pushed packets, and the writer has nothing pending if they all fit. -/
structure Passing (cfg : Config) (s : Single) : Prop where
  queued : ∀ m ∈ s.ingress.outq.queue, m.data ∈ s.pushed
  pending : (∀ p ∈ s.pushed, FitsDatagram cfg p) → Pending cfg s.popped s.handed s.ingress.writer

/-- Nothing has been read, and nothing waits. -/
theorem passing_init (cfg : Config) : Passing cfg .init where
  queued := by
    intro m hm
    cases hm
  pending := fun _ => ⟨rfl, rfl⟩

/-- A pass of the packing loop in single-only mode: it never asks the queue. -/
theorem Whole.packOnce {cfg : Config} {popped handed : List UInt8} {l : Wtfs}
    (h : Whole cfg popped handed l) (hone : cfg.oneonly = true) (hmtu : l.mtu ≠ 0) :
    (packOnce cfg l).2 = none ∧ Whole cfg popped handed (packOnce cfg l).1 := by
  have hhead : 8 ≤ cfg.tfsmtu := by
    by_contra hlt
    exact hmtu (h.headless (by omega))
  cases hm : l.m with
  | none =>
      -- No packet in hand: the rest of the datagram is padding, which is no data.
      have hpass : Iptfs.packOnce cfg l =
          ({ l with iov := l.iov ++ [.pad l.mtu], mtu := 0 }, none) := by
        rw [Iptfs.packOnce, hm]
      rw [hpass]
      refine ⟨rfl, h.leftover, ?_, ?_, fun _ => rfl⟩
      · rw [iovData_append, iovData_pad, List.append_nil]
        exact h.bytes
      · intro _ m hsome
        rw [hm] at hsome
        cases hsome
  | some m =>
      -- A packet in hand: it fits, so it is laid out whole and there is no second one.
      obtain ⟨hroom, hlen⟩ := h.room hhead m hm
      have h6 : ¬ l.mtu ≤ 6 := Nat.not_le.mpr hroom
      have hle : ¬ m.len > l.mtu := Nat.not_lt.mpr hlen
      have hpass : Iptfs.packOnce cfg l = ({ l with
          iov := l.iov ++ [.mbuf m m.len]
          efreem := l.efreem ++ [m]
          m := none
          mtu := l.mtu - m.len }, none) := by
        simp only [Iptfs.packOnce, hm, h6, if_false, hle, hone, Bool.true_eq_false, and_false]
      rw [hpass]
      refine ⟨rfl, h.leftover, ?_, ?_, ?_⟩
      · rw [h.bytes, hm, iovData_append, iovData_mbuf]
        simp
      · intro _ m' hsome
        cases hsome
      · intro hlt
        omega

/-- A packet that fits is popped, and the packing loop begins with it. -/
theorem whole_enter {cfg : Config} {m : Mbuf} {taken : List Mbuf} {popped handed : List UInt8}
    (hfits : FitsDatagram cfg m.data) (hbytes : popped = handed) :
    Whole cfg (popped ++ m.data) handed (wtfsEnter cfg m taken) where
  leftover := rfl
  bytes := by simp [wtfsEnter, iovData, hbytes]
  room := by
    intro hhead m' hm'
    cases hm'
    obtain hlt | ⟨hlarge, hlen⟩ := hfits
    · omega
    · refine ⟨?_, hlen⟩
      show 6 < cfg.tfsmtu - 8
      omega
  headless := by
    intro hlt
    show cfg.tfsmtu - 8 = 0
    omega

/-- When the room is used up, no packet is in hand. -/
theorem Whole.bytes_of_full {cfg : Config} {popped handed : List UInt8} {l : Wtfs}
    (h : Whole cfg popped handed l) (hmtu : l.mtu = 0) (hhead : 8 ≤ cfg.tfsmtu) :
    popped = handed ++ iovData l.iov := by
  have hm : l.m = none := by
    apply Option.eq_none_iff_forall_ne_some.mpr
    intro m hm
    have hroom := (h.room hhead m hm).1
    omega
  have hbytes := h.bytes
  rw [hm] at hbytes
  simpa using hbytes

/-- What `mqueue_trypop` pops was on the queue. -/
theorem mem_of_mqueueTrypop {mq mq' : Queue Mbuf} {maxsize : Nat} {m : Mbuf}
    (h : mqueueTrypop Mbuf.len mq maxsize = (some m, mq')) : m ∈ mq.queue := by
  rw [mqueueTrypop_queue h]
  exact List.mem_cons_self

/-- A step of `read_intf_pkts` touches the outq only to push what it has in hand. -/
theorem readIntfStep_queued {s t : Ingress} {result : Option (List UInt8)}
    (h : readIntfStep s result = .ok t) :
    ∀ m ∈ t.outq.queue, m ∈ s.outq.queue ∨ m.data ∈ s.reader.pushes := by
  intro m hm
  unfold readIntfStep at h
  cases hreader : s.reader with
  | pop =>
      simp only [hreader] at h
      split at h
      · cases h
      · cases h
        exact Or.inl hm
  | read m' =>
      simp only [hreader] at h
      cases result with
      | none =>
          cases h
          exact Or.inl hm
      | some bytes =>
          dsimp only at h
          split at h
          · cases h
            exact Or.inl hm
          · cases h
            exact Or.inl hm
  | pushFree m' =>
      simp only [hreader] at h
      split at h
      · cases h
      · cases h
        exact Or.inl hm
  | pushOut m' =>
      simp only [hreader] at h
      split at h
      · cases h
      · rename_i outq hpush
        cases h
        rw [(Queue.push_eq_some.mp hpush).1] at hm
        obtain rfl | hm := List.mem_cons.mp hm
        · -- The packet that is pushed in this step.
          exact Or.inr (List.mem_singleton_self _)
        · exact Or.inl hm

/-- A step of the writer pushes nothing on the outq. -/
theorem writeTfsStep_queued {cfg : Config} {s t : Ingress} {sent : Bool}
    (h : writeTfsStep cfg s sent = .ok t) : ∀ m ∈ t.outq.queue, m ∈ s.outq.queue := by
  intro m hm
  unfold writeTfsStep at h
  split at h
  · split at h
    · cases h
    · split at h
      · cases h
        exact hm
      · split at h
        · rename_i outq hpop
          cases h
          -- What is left after a pop was there before it.
          rw [mqueueTrypop_queue hpop]
          exact List.mem_append_right _ hm
        · cases h
          exact hm
  · split at h
    · cases h
      exact hm
    · split at h <;> cases h <;> exact hm
  · split at h
    rename_i outq hpop
    cases h
    rw [mqueueTrypop_queue hpop]
    exact List.mem_append_right _ hm
  · split at h
    · cases h
    · cases h
      exact hm
  · cases h
    exact hm
  · split at h
    · cases h
    · cases h
      exact hm

/-- A step of the writer leaves nothing pending where there was nothing. -/
theorem pending_step {cfg : Config} (hone : cfg.oneonly = true) {s : Single} {t : Ingress}
    {sent : Bool} (hqueued : ∀ m ∈ s.ingress.outq.queue, FitsDatagram cfg m.data)
    (hs : Pending cfg s.popped s.handed s.ingress.writer)
    (h : writeTfsStep cfg s.ingress sent = .ok t) :
    Pending cfg (s.popped ++ s.ingress.writer.pops s.ingress.outq)
      (s.handed ++ s.ingress.writer.handsOver sent) t.writer := by
  unfold writeTfsStep at h
  cases hwriter : s.ingress.writer with
  | call leftover =>
      simp only [hwriter] at h hs
      obtain ⟨rfl, hbytes⟩ := hs
      split at h
      · cases h
      · dsimp only at h
        split at h
        · rename_i m outq hpop
          cases h
          -- A new packet comes from the queue, and it fits by assumption.
          have hfits := hqueued m (mem_of_mqueueTrypop hpop)
          have hwhole : Whole cfg (s.popped ++ m.data) s.handed (wtfsEnter cfg m [m]) :=
            whole_enter hfits hbytes
          simpa [Pending, TfsWriter.pops, TfsWriter.handsOver, hpop] using hwhole
        · rename_i outq hpop
          cases h
          refine ⟨rfl, ?_⟩
          simp [TfsWriter.pops, TfsWriter.handsOver, hpop, hbytes]
  | pack offset l =>
      simp only [hwriter] at h hs
      have hs : Whole cfg s.popped s.handed l := hs
      split at h
      · rename_i hmtu
        cases h
        refine ⟨hs.leftover, ?_⟩
        intro hhead
        -- The datagram is full: all that was popped is in its gather list.
        have hbytes := hs.bytes_of_full hmtu hhead
        simpa [TfsWriter.pops, TfsWriter.handsOver] using hbytes
      · rename_i hmtu
        obtain ⟨hask, hwhole⟩ := hs.packOnce hone hmtu
        have hpass : packOnce cfg l = ((packOnce cfg l).1, none) := Prod.ext rfl hask
        rw [hpass] at h
        cases h
        refine ⟨hwhole.leftover, ?_, hwhole.room, hwhole.headless⟩
        simpa [TfsWriter.pops, TfsWriter.handsOver] using hwhole.bytes
  -- The loop never gets here in this mode.
  | trypop offset l maxsize =>
      rw [hwriter] at hs
      cases hs
  | send offset l =>
      simp only [hwriter] at h hs
      obtain ⟨hleft, hbytes⟩ := hs
      split at h
      · cases h
      · rename_i hlen
        cases h
        -- `sendmsg` is reached with a list as long as `g_tfsmtu`, which the header is part of.
        have hhead : 8 ≤ cfg.tfsmtu := by
          have := le_iovlen s.ingress.seq offset l.iov
          omega
        have hall : s.popped = s.handed ++ iovData l.iov := hbytes hhead
        cases sent with
        | true =>
            refine ⟨hleft, ?_⟩
            simpa [TfsWriter.pops, TfsWriter.handsOver] using hall
        | false =>
            refine ⟨rfl, ?_⟩
            simpa [TfsWriter.pops, TfsWriter.handsOver, hleft] using hall
  | free leftover freem =>
      simp only [hwriter] at h hs
      obtain ⟨hleft, hbytes⟩ := hs
      have hkept : s.popped ++ (TfsWriter.free leftover freem).pops s.ingress.outq =
          s.handed ++ (TfsWriter.free leftover freem).handsOver sent := by
        simpa [TfsWriter.pops, TfsWriter.handsOver] using hbytes
      cases freem with
      | nil =>
          cases h
          exact ⟨hleft, hkept⟩
      | cons m freem =>
          dsimp only at h
          split at h
          · cases h
          · cases h
            exact ⟨hleft, hkept⟩

/-- Every step keeps the invariant. -/
theorem passing_step {cfg : Config} (hone : cfg.oneonly = true) {s t : Single} {e : IngressEvent}
    (hs : Passing cfg s) (h : singleStep cfg s e = .ok t) : Passing cfg t := by
  unfold singleStep at h
  split at h
  · cases h
  · rename_i u hstep
    cases e with
    | reader result =>
        cases h
        have hstep : readIntfStep s.ingress result = .ok u := hstep
        constructor
        · intro m hm
          -- A packet on the queue was there before, or it is pushed in this step.
          obtain hold | hnew := readIntfStep_queued hstep m hm
          · exact List.mem_append_left _ (hs.queued m hold)
          · exact List.mem_append_right _ hnew
        · intro hfit
          have hpending := hs.pending fun p hp => hfit p (List.mem_append_left _ hp)
          show Pending cfg s.popped s.handed u.writer
          rw [(readIntfStep_moves hstep).1]
          exact hpending
    | writer sent =>
        cases h
        have hstep : writeTfsStep cfg s.ingress sent = .ok u := hstep
        constructor
        · intro m hm
          exact hs.queued m (writeTfsStep_queued hstep m hm)
        · intro hfit
          apply pending_step hone _ (hs.pending hfit) hstep
          intro m hm
          exact hfit _ (hs.queued m hm)

/-! ### The run that serves a packet -/

/-- Both threads are at the start, with room in the outq and a buffer in the free queue. -/
structure Idle (s : Single) : Prop where
  reader : s.ingress.reader = .pop
  writer : s.ingress.writer = .call none
  empty : s.ingress.outq.queue = []
  room : 0 < s.ingress.outq.size
  free : s.ingress.freeq.queue ≠ []
  clean : ∀ m ∈ s.ingress.freeq.queue, m.refcnt = 0
  bytes : s.popped = s.handed

/-- The writer is at `writer` with the packet of `m` popped, and nothing else is under way. -/
structure Serves (s : Single) (m : Mbuf) (writer : TfsWriter) : Prop where
  reader : s.ingress.reader = .pop
  writer : s.ingress.writer = writer
  empty : s.ingress.outq.queue = []
  room : 0 < s.ingress.outq.size
  space : s.ingress.freeq.queue.length < s.ingress.freeq.size
  clean : ∀ m' ∈ s.ingress.freeq.queue, m'.refcnt = 0
  refcnt : m.refcnt = 0
  bytes : s.popped = s.handed ++ m.data

/-- At the start all the mbufs are free and both threads wait for the first packet. -/
theorem idle_init : Idle .init where
  reader := rfl
  writer := rfl
  empty := rfl
  room := by decide
  free := by
    intro hnil
    have hlen : Single.init.ingress.freeq.queue.length = 256 := by
      simp [Single.init, Ingress.init, mqueueNewFreeq, INNERQSZ]
    rw [hnil] at hlen
    cases hlen
  clean := by
    intro m hm
    obtain ⟨id, _, rfl⟩ := List.mem_map.mp hm
    rfl
  bytes := rfl

/-- A packet is read, pushed on the outq, and popped by the writer. -/
theorem takes (cfg : Config) {s : Single} (h : Idle s) (p : IntfPacket) :
    ∃ es t m, run (singleStep cfg) s es = .ok t ∧ m.data = p.bytes ∧
      t.pushed = s.pushed ++ [p.bytes] ∧ Serves t m (.pack 0 (wtfsEnter cfg m [m])) := by
  obtain ⟨buf, rest, hfree⟩ := List.exists_cons_of_ne_nil h.free
  obtain ⟨m, hm⟩ : ∃ m : Mbuf, m = { buf with data := p.bytes } := ⟨_, rfl⟩
  have hdata : m.data = p.bytes := by rw [hm]
  have hrefcnt : m.refcnt = 0 := by
    rw [hm]
    exact h.clean buf (by rw [hfree]; exact List.mem_cons_self)
  obtain ⟨freeq, hpop, hfreeq, hsize⟩ := Queue.exists_pop hfree
  have hnotfull : s.ingress.outq.queue.length < s.ingress.outq.size := by
    rw [h.empty]
    exact h.room
  obtain ⟨outq, hpush, houtq, hroom⟩ := Queue.exists_push hnotfull m
  obtain ⟨outq', hpop', houtq', hroom'⟩ := Queue.exists_pop houtq
  have hread : p.bytes.take (MAXBUF - HDRSPACE) = p.bytes := List.take_of_length_le p.length_le
  -- Three steps of the reader: the free mbuf, `read`, the push.
  have hfirst : singleStep cfg s (.reader none) = .ok { s with ingress :=
      { s.ingress with freeq := freeq, reader := .read buf } } := by
    simp [singleStep, ingressStep, readIntfStep, h.reader, mqueuePop, hpop, IntfReader.pushes]
  have hsecond : singleStep cfg
      { s with ingress := { s.ingress with freeq := freeq, reader := .read buf } }
      (.reader (some p.bytes)) = .ok { s with ingress :=
        { s.ingress with freeq := freeq, reader := .pushOut m } } := by
    simp [singleStep, ingressStep, readIntfStep, hread, p.ne_nil, IntfReader.pushes, hm]
  have hthird : singleStep cfg
      { s with ingress := { s.ingress with freeq := freeq, reader := .pushOut m } }
      (.reader none) = .ok { s with
        ingress := { s.ingress with freeq := freeq, outq := outq, reader := .pop }
        pushed := s.pushed ++ [p.bytes] } := by
    simp [singleStep, ingressStep, readIntfStep, mqueuePush, hpush, IntfReader.pushes, hdata]
  -- One step of the writer: the call begins with the packet.
  have hfourth : singleStep cfg { s with
        ingress := { s.ingress with freeq := freeq, outq := outq, reader := .pop }
        pushed := s.pushed ++ [p.bytes] } (.writer true) = .ok { s with
        ingress := { s.ingress with
          freeq := freeq
          outq := outq'
          reader := .pop
          writer := .pack 0 (wtfsEnter cfg m [m]) }
        pushed := s.pushed ++ [p.bytes]
        popped := s.popped ++ m.data } := by
    simp [singleStep, ingressStep, writeTfsStep, h.writer, houtq, mqueueTrypop, hpop',
      TfsWriter.pops, TfsWriter.handsOver]
  have hrun := (run_cons_ok [.reader (some p.bytes), .reader none, .writer true] hfirst).trans
    ((run_cons_ok [.reader none, .writer true] hsecond).trans
      ((run_cons_ok [.writer true] hthird).trans (run_cons_ok [] hfourth)))
  refine ⟨_, _, m, hrun, hdata, rfl, rfl, rfl, houtq'.trans h.empty, ?_, ?_, ?_, hrefcnt, ?_⟩
  · show 0 < outq'.size
    rw [hroom', hroom]
    exact h.room
  · show freeq.queue.length < freeq.size
    have hle := s.ingress.freeq.depth_le
    rw [hfree, List.length_cons] at hle
    rw [hfreeq, hsize]
    omega
  · intro m' hm'
    apply h.clean
    rw [hfree]
    exact List.mem_cons_of_mem _ (hfreeq ▸ hm')
  · show s.popped ++ m.data = s.handed ++ m.data
    rw [h.bytes]

/-- A pass of the packing loop in single-only mode uses up fuel, and does not ask the queue. -/
theorem packOnce_oneonly {cfg : Config} (hone : cfg.oneonly = true) {l : Wtfs} (hmtu : l.mtu ≠ 0) :
    (packOnce cfg l).2 = none ∧ packFuel (packOnce cfg l).1 [] < packFuel l [] := by
  cases hm : l.m with
  | none =>
      simp only [packOnce, hm, true_and, packFuel, Option.toList_none, List.length_nil]
      omega
  | some m =>
      by_cases h6 : l.mtu ≤ 6
      · simp only [packOnce, hm, h6, if_true, true_and, packFuel, Option.toList_some,
          List.length_nil, List.length_singleton]
        omega
      · by_cases hbig : m.len > l.mtu
        · simp only [packOnce, hm, h6, if_false, hbig, if_true, true_and, packFuel,
            Option.toList_some, Option.toList_none, List.length_nil, List.length_singleton]
          omega
        · simp only [packOnce, hm, h6, if_false, hbig, hone, Bool.true_eq_false, and_false,
            true_and, packFuel, Option.toList_some, Option.toList_none, List.length_nil,
            List.length_singleton]
          omega

/-- The packing loop in single-only mode, as a run of the writer. -/
theorem packs {cfg : Config} (hone : cfg.oneonly = true) (offset : Nat) (fuel : Nat) :
    ∀ {s : Single} {l : Wtfs}, packFuel l [] ≤ fuel → s.ingress.writer = .pack offset l →
      ∃ es, run (singleStep cfg) s es = .ok { s with ingress :=
        { s.ingress with writer := .send offset (packLoop cfg fuel l []) } } := by
  -- Where the datagram is full, the next step is `sendmsg`.
  have hlast : ∀ {s : Single} {l : Wtfs}, l.mtu = 0 → s.ingress.writer = .pack offset l →
      run (singleStep cfg) s [.writer true] = .ok { s with ingress :=
        { s.ingress with writer := .send offset l } } := by
    intro s l hmtu hwriter
    have hstep : singleStep cfg s (.writer true) = .ok { s with ingress :=
        { s.ingress with writer := .send offset l } } := by
      simp [singleStep, ingressStep, writeTfsStep, hwriter, hmtu, TfsWriter.pops,
        TfsWriter.handsOver]
    exact run_cons_ok [] hstep
  -- Induction on the passes of the loop, which the steps of the writer follow one by one.
  induction fuel with
  | zero =>
      intro s l hfuel hwriter
      have hmtu : l.mtu = 0 := by
        unfold packFuel at hfuel
        omega
      exact ⟨_, hlast hmtu hwriter⟩
  | succ fuel ih =>
      intro s l hfuel hwriter
      by_cases hmtu : l.mtu = 0
      · have hloop : packLoop cfg (fuel + 1) l [] = l := by
          simp only [packLoop, hmtu, if_true]
        rw [hloop]
        exact ⟨_, hlast hmtu hwriter⟩
      · obtain ⟨hask, hless⟩ := packOnce_oneonly hone hmtu
        have hpass : packOnce cfg l = ((packOnce cfg l).1, none) := Prod.ext rfl hask
        have hloop : packLoop cfg (fuel + 1) l [] = packLoop cfg fuel (packOnce cfg l).1 [] := by
          rw [packLoop, if_neg hmtu, hpass]
        have hstep : singleStep cfg s (.writer true) = .ok { s with ingress :=
            { s.ingress with writer := .pack offset (packOnce cfg l).1 } } := by
          simp only [singleStep, ingressStep, writeTfsStep, hwriter, if_neg hmtu]
          rw [hpass]
          simp [TfsWriter.pops, TfsWriter.handsOver]
        obtain ⟨es, hes⟩ := ih (s := { s with ingress :=
            { s.ingress with writer := .pack offset (packOnce cfg l).1 } })
          (Nat.le_of_lt_succ (Nat.lt_of_lt_of_le hless hfuel)) rfl
        refine ⟨.writer true :: es, ?_⟩
        rw [run_cons_ok es hstep, hes, hloop]

/-- How the packing loop ends with one packet, when the queue gives no other. -/
theorem packLoop_one (cfg : Config) (hmtu : 8 < cfg.tfsmtu) (m : Mbuf) :
    ∃ iov freed leftover l, packLoop cfg (packFuel (wtfsEnter cfg m [m]) []) (wtfsEnter cfg m [m])
        [] = l ∧ Packed (cfg.tfsmtu - 8) [m] iov freed leftover ∧ l.iov = iov ∧ l.efreem = freed ∧
      l.leftover = leftover := by
  have hpos : (wtfsEnter cfg m [m]).mtu = 0 → (wtfsEnter cfg m [m]).m = none := by
    intro h0
    have h0 : cfg.tfsmtu - 8 = 0 := h0
    omega
  obtain ⟨ts, iov, freed, leftover, hpacked, hts, _, hiov, hfreed, hleft, _⟩ :=
    packLoop_fills cfg _ (wtfsEnter cfg m [m]) [] (Nat.le_refl _) rfl hpos
  have hnil : ts = [] := by
    apply List.eq_nil_iff_forall_not_mem.mpr
    intro p hp
    exact absurd (hts p hp) (List.not_mem_nil)
  rw [hnil] at hpacked
  exact ⟨iov, freed, leftover, _, rfl, hpacked, hiov, hfreed, hleft⟩

/-- A packet that fits fills the datagram with a pad. -/
theorem Packed.fits {room : Nat} {m : Mbuf} {iov : List Iov} {freed : List Mbuf}
    {leftover : Option Mbuf} (h : Packed room [m] iov freed leftover) (hroom : 6 < room)
    (hlen : m.len ≤ room) : freed = [m] ∧ leftover = none ∧ iovData iov = m.data := by
  cases h with
  | lost _ _ _ htight => omega
  | part _ _ _ hbig => omega
  | full _ _ ms iov freed leftover _ _ _ h =>
      have hcons : ∀ iov, iovData (.mbuf m m.len :: iov) = m.data ++ iovData iov := by
        intro iov
        rw [← iovData_mbuf m, ← iovData_append, List.singleton_append]
      generalize room - m.len = rest at h
      cases h with
      | exact => exact ⟨rfl, rfl, by rw [hcons, iovData_nil, List.append_nil]⟩
      | pad _ _ => exact ⟨rfl, rfl, by rw [hcons, iovData_pad, List.append_nil]⟩

/-- A packet that does not fit is cut, or dropped where the datagram has no room for any. -/
theorem Packed.strands {room : Nat} {m : Mbuf} {iov : List Iov} {freed : List Mbuf}
    {leftover : Option Mbuf} (h : Packed room [m] iov freed leftover)
    (hfit : room ≤ 6 ∨ room < m.len) :
    freed = [] ∧ (leftover = none → iovData iov = []) := by
  cases h with
  | lost _ _ _ _ => exact ⟨rfl, fun _ => rfl⟩
  | part _ _ _ _ =>
      refine ⟨rfl, ?_⟩
      intro hnone
      cases hnone
  | full _ _ _ _ _ _ hroom hlen _ _ => omega

/-- The `sendmsg`. -/
theorem sends {cfg : Config} {s : Single} {offset : Nat} {l : Wtfs}
    (hwriter : s.ingress.writer = .send offset l)
    (hlen : iovlen (.hdr (wtfsHdr s.ingress.seq offset) :: l.iov) = cfg.tfsmtu) :
    singleStep cfg s (.writer true) = .ok { s with
      ingress := { s.ingress with
        seq := (s.ingress.seq + 1) % 2 ^ 32
        writer := .free l.leftover l.efreem }
      handed := s.handed ++ iovData l.iov } := by
  simp [singleStep, ingressStep, writeTfsStep, hwriter, hlen, TfsWriter.pops, TfsWriter.handsOver]

/-- The end of the loop after `sendmsg`. -/
theorem returns (cfg : Config) {s : Single} {leftover : Option Mbuf}
    (hwriter : s.ingress.writer = .free leftover []) :
    singleStep cfg s (.writer true) =
      .ok { s with ingress := { s.ingress with writer := .call leftover } } := by
  simp [singleStep, ingressStep, writeTfsStep, hwriter, TfsWriter.pops, TfsWriter.handsOver]

/-- A packet that fits is sent in one datagram, and both threads are at the start again. -/
theorem serves {cfg : Config} (hone : cfg.oneonly = true) {s : Single} {m : Mbuf}
    (h : Serves s m (.pack 0 (wtfsEnter cfg m [m]))) (hlarge : 14 < cfg.tfsmtu)
    (hfit : m.len ≤ cfg.tfsmtu - 8) :
    ∃ es t, run (singleStep cfg) s es = .ok t ∧ t.pushed = s.pushed ∧ Idle t := by
  obtain ⟨iov, freed, leftover, l, hloop, hpacked, hiov, hfreed, hleft⟩ :=
    packLoop_one cfg (by omega) m
  obtain ⟨hfreed', hleft', hbytes⟩ := hpacked.fits (by omega) hfit
  rw [hfreed'] at hfreed
  rw [hleft'] at hleft
  obtain ⟨es, hes⟩ := packs hone 0 _ (Nat.le_refl _) h.writer
  rw [hloop] at hes
  -- The loop has filled the datagram, so that it is sent.
  have hlen : iovlen (.hdr (wtfsHdr s.ingress.seq 0) :: l.iov) = cfg.tfsmtu := by
    rw [iovlen_cons, hiov, iovlen_packed hpacked, Iov.len, length_wtfsHdr]
    omega
  have hsend := sends (s := { s with ingress := { s.ingress with writer := .send 0 l } }) rfl hlen
  rw [hleft, hfreed, hiov, hbytes] at hsend
  obtain ⟨freeq, hpush, hfreeq, _⟩ := Queue.exists_push h.space { m with data := [] }
  -- And the mbuf of the packet goes back to its queue.
  have hreset : mqueuePushReset s.ingress.freeq m = .ok freeq := by
    rw [mqueuePushReset, mbufReset, if_pos h.refcnt]
    simp only [mqueuePush, hpush]
  have hfree : singleStep cfg
      { s with
        ingress := { s.ingress with
          seq := (s.ingress.seq + 1) % 2 ^ 32
          writer := .free none [m] }
        handed := s.handed ++ m.data } (.writer true) =
      .ok { s with
        ingress := { s.ingress with
          seq := (s.ingress.seq + 1) % 2 ^ 32
          writer := .free none []
          freeq := freeq }
        handed := s.handed ++ m.data } := by
    simp [singleStep, ingressStep, writeTfsStep, hreset, TfsWriter.pops, TfsWriter.handsOver]
  have hrun := run_append.mpr ⟨_, hes, (run_cons_ok [.writer true, .writer true] hsend).trans
    ((run_cons_ok [.writer true] hfree).trans (run_cons_ok [] (returns cfg rfl)))⟩
  refine ⟨_, _, hrun, rfl, h.reader, rfl, h.empty, h.room, ?_, ?_, h.bytes⟩
  · show freeq.queue ≠ []
    rw [hfreeq]
    exact List.cons_ne_nil _ _
  · intro m' hm'
    have hm' : m' ∈ freeq.queue := hm'
    rw [hfreeq] at hm'
    obtain rfl | hm' := List.mem_cons.mp hm'
    · exact h.refcnt
    · exact h.clean m' hm'

/-- A packet that does not fit is left over, or lost. -/
theorem strands {cfg : Config} (hone : cfg.oneonly = true) {s : Single} {m : Mbuf}
    (h : Serves s m (.pack 0 (wtfsEnter cfg m [m]))) (hne : m.data ≠ [])
    (hfit : ¬ FitsDatagram cfg m.data) :
    ∃ es t, run (singleStep cfg) s es = .ok t ∧ t.pushed = s.pushed ∧ ¬ t.NothingPending := by
  have hhead : 8 ≤ cfg.tfsmtu := by
    by_contra hlt
    exact hfit (Or.inl (by omega))
  have hbig : cfg.tfsmtu - 8 ≤ 6 ∨ cfg.tfsmtu - 8 < m.len := by
    by_contra hno
    apply hfit
    refine Or.inr ⟨by omega, ?_⟩
    show m.len ≤ cfg.tfsmtu - 8
    omega
  -- The datagram is sent without all of the packet.
  obtain ⟨l, hloop, hlen, hfreed, hshort⟩ : ∃ l, packLoop cfg
      (packFuel (wtfsEnter cfg m [m]) []) (wtfsEnter cfg m [m]) [] = l ∧
      iovlen (.hdr (wtfsHdr s.ingress.seq 0) :: l.iov) = cfg.tfsmtu ∧ l.efreem = [] ∧
      (l.leftover = none → iovData l.iov = []) := by
    obtain height | hmore := Nat.eq_or_lt_of_le hhead
    · have hmtu : (wtfsEnter cfg m [m]).mtu = 0 := by
        show cfg.tfsmtu - 8 = 0
        omega
      refine ⟨wtfsEnter cfg m [m], ?_, ?_, rfl, fun _ => rfl⟩
      · cases packFuel (wtfsEnter cfg m [m]) [] <;> simp only [packLoop, hmtu, if_true]
      · rw [← height]
        rfl
    · obtain ⟨iov, freed, leftover, l, hloop, hpacked, hiov, hfreed, hleft⟩ :=
        packLoop_one cfg hmore m
      obtain ⟨hfreed', hshort⟩ := hpacked.strands hbig
      refine ⟨l, hloop, ?_, hfreed.trans hfreed', ?_⟩
      · rw [iovlen_cons, hiov, iovlen_packed hpacked, Iov.len, length_wtfsHdr]
        omega
      · rw [hleft, hiov]
        exact hshort
  obtain ⟨es, hes⟩ := packs hone 0 _ (Nat.le_refl _) h.writer
  rw [hloop] at hes
  have hsend := sends (s := { s with ingress := { s.ingress with writer := .send 0 l } }) rfl hlen
  rw [hfreed] at hsend
  have hrun := run_append.mpr ⟨_, hes, (run_cons_ok [.writer true] hsend).trans
    (run_cons_ok [] (returns cfg rfl))⟩
  refine ⟨_, _, hrun, rfl, ?_⟩
  intro hnothing
  obtain ⟨hnone, hbytes⟩ := hnothing l.leftover ⟨rfl, h.empty⟩
  have hbytes : s.popped = s.handed ++ iovData l.iov := hbytes
  rw [hshort hnone, List.append_nil, h.bytes] at hbytes
  exact hne (List.append_right_eq_self.mp hbytes)

/-- Any packets up to the first that does not fit are served, and that one strands. -/
theorem exists_strands {cfg : Config} (hone : cfg.oneonly = true) (packets : List IntfPacket) :
    ∀ {s : Single}, Idle s → (∃ p ∈ packets, ¬ FitsDatagram cfg p.bytes) →
      ∃ es t ps, run (singleStep cfg) s es = .ok t ∧ ps <+: packets ∧
        t.pushed = s.pushed ++ ps.map IntfPacket.bytes ∧ ¬ t.NothingPending := by
  induction packets with
  | nil =>
      rintro s _ ⟨p, hp, _⟩
      cases hp
  | cons p packets ih =>
      rintro s hs ⟨q, hq, hbad⟩
      obtain ⟨es, t, m, hrun, hdata, hpushed, hserves⟩ := takes cfg hs p
      -- The first packet of the list that does not fit is the one that strands. Those before it
      -- are served.
      by_cases hfit : FitsDatagram cfg p.bytes
      · have hqs : q ∈ packets := by
          obtain rfl | hq := List.mem_cons.mp hq
          · exact absurd hfit hbad
          · exact hq
        have hlarge : 14 < cfg.tfsmtu ∧ p.bytes.length ≤ cfg.tfsmtu - 8 := by
          obtain hlt | hlarge := hfit
          · exact absurd (Or.inl hlt) hbad
          · exact hlarge
        have hlen : m.len ≤ cfg.tfsmtu - 8 := by
          rw [Mbuf.len, hdata]
          exact hlarge.2
        obtain ⟨es', t', hrun', hpushed', hidle⟩ := serves hone hserves hlarge.1 hlen
        obtain ⟨es'', t'', ps, hrun'', hps, hpushed'', hstrand⟩ := ih hidle ⟨q, hqs, hbad⟩
        refine ⟨es ++ (es' ++ es''), t'', p :: ps,
          run_append.mpr ⟨t, hrun, run_append.mpr ⟨t', hrun', hrun''⟩⟩,
          List.cons_prefix_cons.mpr ⟨rfl, hps⟩, ?_, hstrand⟩
        rw [hpushed'', hpushed', hpushed, List.append_assoc]
        rfl
      · have hne : m.data ≠ [] := by
          rw [hdata]
          exact p.ne_nil
        rw [← hdata] at hfit
        obtain ⟨es', t', hrun', hpushed', hstrand⟩ := strands hone hserves hne hfit
        refine ⟨es ++ es', t', [p], run_append.mpr ⟨t, hrun, hrun'⟩,
          List.cons_prefix_cons.mpr ⟨rfl, List.nil_prefix⟩, ?_, hstrand⟩
        rw [hpushed', hpushed]
        rfl

/-- When single-only mode strands nothing. Take any sequence of packets, and any interleaving of
the two threads that pushes them. Whenever the writer waits on the outq, it has no leftover, and
every byte it popped went to a `sendmsg`, exactly when each of the packets fits in a datagram. -/
theorem nothingPending_iff (cfg : Config) (hone : cfg.oneonly = true) (packets : List IntfPacket) :
    (∀ es s, run (singleStep cfg) .init es = .ok s →
        s.pushed <+: packets.map IntfPacket.bytes → s.NothingPending) ↔
      ∀ p ∈ packets, FitsDatagram cfg p.bytes := by
  constructor
  · intro h p hp
    by_contra hbad
    obtain ⟨es, t, ps, hrun, hps, hpushed, hstrand⟩ :=
      exists_strands hone packets idle_init ⟨p, hp, hbad⟩
    apply hstrand
    apply h es t hrun
    rw [hpushed]
    exact hps.map IntfPacket.bytes
  · intro h es s hrun hpushed
    have hpassing : Passing cfg s := run_invariant (fun _ _ _ => passing_step hone)
      (passing_init cfg) hrun
    have hfit : ∀ p ∈ s.pushed, FitsDatagram cfg p := by
      intro p hp
      obtain ⟨q, hq, rfl⟩ := List.mem_map.mp (hpushed.subset hp)
      exact h q hq
    rintro leftover ⟨hwriter, _⟩
    have hpending := hpassing.pending hfit
    rw [hwriter] at hpending
    exact hpending

set_option maxRecDepth 4000 in
/-- A packet of one byte is sent in a datagram of 100. -/
theorem nothingPending_small : ∃ s, run (singleStep ⟨100, true, false⟩) .init
    [.reader none, .reader (some [0x45]), .reader none, .writer true, .writer true, .writer true,
      .writer true, .writer true, .writer true, .writer true] = .ok s ∧
    s.Waiting none ∧ s.NothingPending := by
  obtain ⟨s, hrun, hwaits, hpushed⟩ : ∃ s, run (singleStep ⟨100, true, false⟩) .init
      [.reader none, .reader (some [0x45]), .reader none, .writer true, .writer true, .writer true,
        .writer true, .writer true, .writer true, .writer true] = .ok s ∧
      s.Waiting none ∧ s.pushed = [[0x45]] := ⟨_, rfl, ⟨rfl, rfl⟩, rfl⟩
  refine ⟨s, hrun, hwaits, ?_⟩
  apply (nothingPending_iff ⟨100, true, false⟩ rfl [⟨[0x45], by decide, by decide⟩]).mpr
    (by decide) _ s hrun
  rw [hpushed]
  exact List.prefix_refl _

set_option maxRecDepth 4000 in
/-- The last 28 bytes of a packet of 120 wait for the packet after it. -/
theorem not_nothingPending : ¬ ∀ (cfg : Config) (es : List IngressEvent) (s : Single),
    cfg.oneonly = true → 14 < cfg.tfsmtu → run (singleStep cfg) .init es = .ok s →
    s.NothingPending := by
  intro h
  have hpending := h ⟨100, true, false⟩ [.reader none, .reader (some (List.replicate 120 0x45)),
    .reader none, .writer true, .writer true, .writer true, .writer true, .writer true] _ rfl
    (by decide) rfl
  have hwaits := (hpending _ ⟨rfl, rfl⟩).1
  cases hwaits

end Proofs

end Iptfs
