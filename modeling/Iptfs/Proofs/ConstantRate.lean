import Iptfs.Lib.Progress
import Iptfs.Proofs.IngressPointers
import Iptfs.Proofs.IngressRefinement

/-!
# `Iptfs.Proofs.ConstantRate`: nothing holds the sender up

`write_tfs_pkts` paces the tunnel: it is to send at each turn, whether there is traffic or not. So
it must not wait for `read_intf_pkts`, and the packets that come in must not keep it busy. This
module proves both for the two threads.

The packing loop asks the queue again and again, and the queue is filled in the meantime. What
ends the loop is that `read_intf_pkts` pushes no empty packet (`Sized`), so each pass uses up room
in the datagram. `TfsWriter.turns` counts the steps that are left to the next datagram.

`constant_rate` is the result. The wait for the next turn, `pps_wait`, is not part of it: the timing
is in `Iptfs.Proofs.RateCap`.
-/

set_option autoImplicit false

namespace Iptfs

/-- The packet that `read_intf_pkts` has read. -/
def IntfReader.loaded : IntfReader → List Mbuf
  | .pushOut m => [m]
  | _ => []

/-- The packets in the hands of `write_tfs_pkt` that still have bytes to be sent. -/
def TfsWriter.loaded : TfsWriter → List Mbuf
  | .call leftover | .free leftover _ => leftover.toList
  | .pack _ l | .trypop _ l _ | .send _ l => l.m.toList ++ l.leftover.toList

/-- The packets on their way to a datagram. -/
def Ingress.loaded (s : Ingress) : List Mbuf :=
  s.outq.queue ++ (s.reader.loaded ++ s.writer.loaded)

/-- The room that the packing loop has left. -/
def TfsWriter.room : TfsWriter → Nat
  | .pack _ l | .trypop _ l _ | .send _ l => l.mtu
  | .call _ | .free _ _ => 0

/-- How many steps `write_tfs_pkts` takes at most before the one that sends. -/
def TfsWriter.turns (tfsmtu : Nat) : TfsWriter → Nat
  | .call _ => 2 * (tfsmtu - 8) + 2
  | .pack _ l => 2 * l.mtu + 1
  | .trypop _ l _ => 2 * l.mtu + 2
  | .send _ _ => 0
  | .free _ freem => freem.length + (2 * (tfsmtu - 8) + 3)

/-- The ingress over a pool of `n` mbufs, before either thread has taken a step. -/
def Ingress.ofPool (n : Nat) : Ingress :=
  { freeq := mqueueNewFreeq n fun id => ⟨id, [], 0⟩, outq := Queue.empty n, reader := .pop,
    writer := .call none, seq := 1 }

/-- And with its record. `tfs_tunnel_ingress` has a pool of `INNERQSZ`. -/
def ObservedIngress.ofPool (n : Nat) : ObservedIngress :=
  { ingress := .ofPool n, came := [], answers := [], calls := [], sent := [] }

/-- The step is one of `write_tfs_pkts`. -/
def IngressEvent.isWriter : IngressEvent → Bool
  | .writer _ => true
  | .reader _ => false

namespace Proofs

open Iptfs.Lib

/-- A packet has bytes, and not more than `read` returns. -/
def Sized (m : Mbuf) : Prop := m.data ≠ [] ∧ m.len ≤ MAXBUF - HDRSPACE

/-- A packet that came has a byte at least. -/
theorem Sized.len_pos {m : Mbuf} (h : Sized m) : 0 < m.len := List.length_pos_iff.mpr h.1

/-- The writer's packets have bytes, and the packing loop has no more room than it began with. -/
structure Supplied (cfg : Config) (w : TfsWriter) : Prop where
  sized : ∀ m ∈ w.loaded, Sized m
  room : w.room ≤ cfg.tfsmtu - 8

/-- A pass of the packing loop uses up room, and what it leaves has bytes. -/
theorem packOnce_sized {cfg : Config} {l l' : Wtfs} {ask : Option Nat} (hmtu : l.mtu ≠ 0)
    (hsized : ∀ m ∈ l.m.toList ++ l.leftover.toList, Sized m)
    (honce : packOnce cfg l = (l', ask)) :
    l'.mtu < l.mtu ∧ ∀ m ∈ l'.m.toList ++ l'.leftover.toList, Sized m := by
  rw [packOnce] at honce
  cases hm : l.m with
  | none =>
      rw [hm] at honce hsized
      cases honce
      exact ⟨Nat.pos_of_ne_zero hmtu, hsized⟩
  | some a =>
      have ha : Sized a := hsized a (by simp [hm])
      simp only [hm] at honce
      split at honce
      · cases honce
        rw [hm] at hsized
        exact ⟨Nat.pos_of_ne_zero hmtu, hsized⟩
      · split at honce
        · -- The packet is cut. There is something left of it.
          rename_i hbig
          cases honce
          refine ⟨Nat.pos_of_ne_zero hmtu, ?_⟩
          have hlen : a.data.length > l.mtu := hbig
          have hmax : a.data.length ≤ MAXBUF - HDRSPACE := ha.2
          have hrest : Sized { a with data := a.data.drop l.mtu } := by
            constructor
            · rw [← List.length_pos_iff, List.length_drop]
              omega
            · show (a.data.drop l.mtu).length ≤ _
              rw [List.length_drop]
              omega
          simpa using hrest
        · -- The packet is packed.
          rename_i hfits
          have hpos := ha.len_pos
          have hleft : ∀ m ∈ l.leftover.toList, Sized m := fun m hmem =>
            hsized m (List.mem_append_right _ hmem)
          cases honce
          refine ⟨by dsimp only; omega, ?_⟩
          simpa using hleft

/-- What a step of `write_tfs_pkts` does to its packets. -/
theorem Supplied.step {cfg : Config} {s t : Ingress} {sent : Bool} (h : Supplied cfg s.writer)
    (hqueue : ∀ m ∈ s.outq.queue, Sized m) (hstep : TfsWriterStep cfg s sent t) :
    Supplied cfg t.writer := by
  have hsized := h.sized
  have hroom := h.room
  cases hstep with
  -- A call begins, with all of the room still to fill.
  | @leftover m hw =>
      rw [hw] at hsized
      exact ⟨by simpa [TfsWriter.loaded, wtfsEnter] using hsized, Nat.le_refl _⟩
  | @first m outq hw hpop =>
      -- What the queue hands out has bytes, since only packets with bytes are pushed.
      have hm : Sized m := by
        apply hqueue
        rw [mqueueTrypop_queue hpop]
        exact List.mem_cons_self
      exact ⟨by simpa [TfsWriter.loaded, wtfsEnter] using hm, Nat.le_refl _⟩
  | empty hw hpop => exact ⟨by simp [TfsWriter.loaded], Nat.zero_le _⟩
  | ended hw hmtu =>
      rw [hw] at hsized hroom
      exact ⟨hsized, hroom⟩
  -- A pass of the loop leaves less room, and no new packet in hand.
  | pass hw hmtu honce =>
      rw [hw] at hsized hroom
      obtain ⟨hless, hkeep⟩ := packOnce_sized hmtu hsized honce
      exact ⟨hkeep, Nat.le_trans (Nat.le_of_lt hless) hroom⟩
  | ask hw hmtu honce =>
      rw [hw] at hsized hroom
      obtain ⟨hless, hkeep⟩ := packOnce_sized hmtu hsized honce
      exact ⟨hkeep, Nat.le_trans (Nat.le_of_lt hless) hroom⟩
  | @trypop offset maxsize l m outq hw hpop =>
      rw [hw] at hsized hroom
      refine ⟨?_, hroom⟩
      intro a ha
      rcases List.mem_append.mp ha with ha | ha
      · apply hqueue
        rw [mqueueTrypop_queue hpop]
        exact List.mem_append_left _ ha
      · exact hsized a (List.mem_append_right _ ha)
  | @send offset l hw hlen =>
      rw [hw] at hsized
      -- The leftover is a part that did not fit, so that it is not empty.
      have hleft : ∀ m ∈ l.leftover.toList, Sized m := fun m hmem =>
        hsized m (List.mem_append_right _ hmem)
      cases sent with
      | true => exact ⟨hleft, Nat.zero_le _⟩
      | false => exact ⟨by simp [TfsWriter.loaded], Nat.zero_le _⟩
  | freed hw =>
      rw [hw] at hsized
      exact ⟨hsized, Nat.zero_le _⟩
  | free hw =>
      rw [hw] at hsized
      exact ⟨hsized, Nat.zero_le _⟩

/-- A step of `write_tfs_pkts` that sends nothing comes closer to the one that does. -/
theorem turns_lt {cfg : Config} {s t : Ingress} {sent : Bool} (h : Supplied cfg s.writer)
    (hstep : TfsWriterStep cfg s sent t) :
    t.writer.turns cfg.tfsmtu < s.writer.turns cfg.tfsmtu ∨
      (∃ outq, s.writer = .call none ∧ mqueueTrypop Mbuf.len s.outq 0 = (none, outq)) ∨
        ∃ offset l, s.writer = .send offset l := by
  have hsized := h.sized
  have hroom := h.room
  cases hstep with
  | leftover hw =>
      left
      rw [hw]
      exact Nat.lt_succ_self _
  | first hw hpop =>
      left
      rw [hw]
      exact Nat.lt_succ_self _
  | @empty outq hw hpop => exact .inr (.inl ⟨outq, hw, hpop⟩)
  | ended hw hmtu =>
      left
      rw [hw]
      exact Nat.succ_pos _
  | @pass offset l l' hw hmtu honce =>
      left
      rw [hw] at hsized ⊢
      obtain ⟨hless, -⟩ := packOnce_sized hmtu hsized honce
      -- Each pass takes some of the room away.
      show 2 * l'.mtu + 1 < 2 * l.mtu + 1
      omega
  | @ask offset maxsize l l' hw hmtu honce =>
      left
      rw [hw] at hsized ⊢
      obtain ⟨hless, -⟩ := packOnce_sized hmtu hsized honce
      -- The question to the queue is one turn more, which the room pays for.
      show 2 * l'.mtu + 2 < 2 * l.mtu + 1
      omega
  | @trypop offset maxsize l m outq hw hpop =>
      left
      rw [hw]
      exact Nat.lt_succ_self _
  -- The one turn in which a datagram goes out. What comes after it begins anew.
  | @send offset l hw hlen => exact .inr (.inr ⟨offset, l, hw⟩)
  | freed hw =>
      left
      rw [hw]
      show 2 * (cfg.tfsmtu - 8) + 2 < 0 + (2 * (cfg.tfsmtu - 8) + 3)
      omega
  | @free leftover m freem freeq hw =>
      left
      rw [hw]
      -- One mbuf less to free.
      show freem.length + _ < (m :: freem).length + _
      rw [List.length_cons]
      omega

/-! ### The two threads -/

/-- The free queue keeps its size. -/
theorem mqueuePushReset_size {mq mq' : Queue Mbuf} {m : Mbuf}
    (h : mqueuePushReset mq m = .ok mq') : mq'.size = mq.size := by
  rw [mqueuePushReset] at h
  cases hreset : mbufReset m with
  | error f =>
      rw [hreset] at h
      cases h
  | ok a =>
      rw [hreset] at h
      dsimp only at h
      cases hpush : mqueuePush mq a with
      | none =>
          rw [hpush] at h
          cases h
      | some q =>
          rw [hpush] at h
          cases h
          exact (Queue.push_eq_some.mp hpush).2

/-- A step of `read_intf_pkts`, for the packets it reads. -/
theorem readIntfStep_sized {s t : Ingress} {result : Option (List UInt8)}
    (h : readIntfStep s result = .ok t) :
    t.freeq.size = s.freeq.size ∧ t.writer = s.writer ∧ ∀ m ∈ t.reader.loaded, Sized m := by
  rw [readIntfStep] at h
  cases hr : s.reader with
  | pop =>
      simp only [hr] at h
      cases hpop : mqueuePop s.freeq with
      | none =>
          simp only [hpop] at h
          cases h
      | some p =>
          obtain ⟨m, freeq⟩ := p
          simp only [hpop] at h
          cases h
          exact ⟨(Queue.pop_eq_some.mp hpop).2, rfl, by simp [IntfReader.loaded]⟩
  | read m =>
      simp only [hr] at h
      split at h
      · cases h
        exact ⟨rfl, rfl, by simp [IntfReader.loaded]⟩
      · split at h
        · cases h
          exact ⟨rfl, rfl, by simp [IntfReader.loaded]⟩
        · rename_i bytes hdata
          cases h
          refine ⟨rfl, rfl, ?_⟩
          intro a ha
          rw [List.mem_singleton.mp ha]
          -- `read` returned bytes, and no more than the mbuf has room for.
          refine ⟨hdata, ?_⟩
          show (bytes.take (MAXBUF - HDRSPACE)).length ≤ _
          rw [List.length_take]
          exact Nat.min_le_left _ _
  | pushFree m =>
      simp only [hr] at h
      split at h
      · cases h
      · rename_i freeq hpush
        cases h
        exact ⟨mqueuePushReset_size hpush, rfl, by simp [IntfReader.loaded]⟩
  | pushOut m =>
      simp only [hr] at h
      split at h
      · cases h
      · cases h
        exact ⟨rfl, rfl, by simp [IntfReader.loaded]⟩

/-- No step of `write_tfs_pkts` changes how many mbufs the free queue holds, or where
`read_intf_pkts` is. The cases are the control points of the writer, and where one frees an mbuf
it is the push that keeps the size. -/
theorem writeTfsStep_size {cfg : Config} {s t : Ingress} {sent : Bool}
    (h : writeTfsStep cfg s sent = .ok t) :
    t.freeq.size = s.freeq.size ∧ t.reader = s.reader := by
  rw [writeTfsStep] at h
  cases hw : s.writer with
  | call leftover =>
      simp only [hw] at h
      split at h
      · cases h
      · cases leftover with
        | some m =>
            cases h
            exact ⟨rfl, rfl⟩
        | none =>
            dsimp only at h
            split at h <;>
            · cases h
              exact ⟨rfl, rfl⟩
  | pack offset l =>
      simp only [hw] at h
      split at h
      · cases h
        exact ⟨rfl, rfl⟩
      · split at h <;>
        · cases h
          exact ⟨rfl, rfl⟩
  | trypop offset l maxsize =>
      simp only [hw] at h
      cases h
      exact ⟨rfl, rfl⟩
  | send offset l =>
      simp only [hw] at h
      split at h
      · cases h
      · cases h
        exact ⟨rfl, rfl⟩
  | free leftover freem =>
      cases freem with
      | nil =>
          simp only [hw] at h
          cases h
          exact ⟨rfl, rfl⟩
      | cons m freem =>
          simp only [hw] at h
          split at h
          · cases h
          · rename_i freeq hpush
            cases h
            -- The push of a freed mbuf: it is there again, and the queue is as large as before.
            exact ⟨mqueuePushReset_size hpush, rfl⟩

/-- All the mbufs are on the free queue at first, each one once. -/
theorem places_ofPool (n : Nat) : (Ingress.ofPool n).places.Perm (List.range n) := by
  have hid : (Ingress.ofPool n).places = (List.range n).reverse := by
    simp [Ingress.places, Ingress.ofPool, mqueueNewFreeq, Queue.empty, IntfReader.hands,
      TfsWriter.hands, Function.comp_def]
  rw [hid]
  exact List.reverse_perm _

/-- Every mbuf of the pool is empty, with its pointers behind the room for the header. -/
theorem ingressPointed_ofPool (cfg : Config) (n : Nat) :
    IngressPointed cfg (.ofPool n) fun _ => .reset where
  held := trivial
  nodup := (places_ofPool n).nodup_iff.mpr List.nodup_range
  pointed := by
    refine ⟨?_, fun m _ => rfl⟩
    intro m hm
    have hfree : m ∈ (List.range n).reverse.map fun id => (⟨id, [], 0⟩ : Mbuf) := by
      simpa [Ingress.mbufs, Ingress.ofPool, mqueueNewFreeq, Queue.empty, IntfReader.mbufs,
        TfsWriter.mbufs] using hm
    obtain ⟨id, -, rfl⟩ := List.mem_map.mp hfree
    exact ⟨rfl, rfl⟩

/-- No call of `write_tfs_pkt` has been made, and no packet has come. -/
theorem calls_ofPool (cfg : Config) (n : Nat) : Calls cfg (.ofPool n) Sender.init where
  ran := rfl
  seq := rfl
  handed := rfl
  rest := rfl
  took := List.Perm.refl []
  answered := by simp [ObservedIngress.ofPool]
  answering := by simp [ObservedIngress.ofPool]

/-- The ingress over `n` mbufs, between two steps. They have room on the free queue, and the packets
on their way have bytes. -/
structure Ready (cfg : Config) (n : Nat) (o : ObservedIngress) : Prop where
  calls : ∃ s, Calls cfg o s
  pointed : ∃ ptrs, IngressPointed cfg o.ingress ptrs
  places : o.ingress.places.length ≤ n
  size : o.ingress.freeq.size = n
  reading : ∀ m ∈ o.ingress.reader.loaded, Sized m
  supplied : Supplied cfg o.ingress.writer
  came : ∀ m ∈ o.came, Sized m

/-- The ingress starts ready, since nothing has come and all the mbufs are free. -/
theorem ready_ofPool (cfg : Config) (n : Nat) : Ready cfg n (.ofPool n) where
  calls := ⟨_, calls_ofPool cfg n⟩
  pointed := ⟨_, ingressPointed_ofPool cfg n⟩
  places := by
    show (Ingress.ofPool n).places.length ≤ n
    rw [(places_ofPool n).length_eq, List.length_range]
  size := rfl
  reading := by simp [ObservedIngress.ofPool, Ingress.ofPool, IntfReader.loaded]
  supplied := ⟨by simp [ObservedIngress.ofPool, Ingress.ofPool, TfsWriter.loaded], Nat.zero_le _⟩
  came := by simp [ObservedIngress.ofPool]

section Step

variable {cfg : Config} {n : Nat} {o p : ObservedIngress}

/-- The threads take their steps under the record. -/
theorem observedIngressStep_ingress {e : IngressEvent}
    (h : observedIngressStep cfg o e = .ok p) : ingressStep cfg o.ingress e = .ok p.ingress := by
  rw [observedIngressStep] at h
  split at h
  · cases h
  · rename_i t ht
    cases e with
    | reader result =>
        cases h
        exact ht
    | writer sent =>
        cases h
        exact ht

/-- The packets on the queue between the threads have come, so that each has bytes. -/
theorem Ready.queued (h : Ready cfg n o) : ∀ m ∈ o.ingress.outq.queue, Sized m := by
  obtain ⟨s, hs⟩ := h.calls
  exact fun m hm => h.came m (hs.queued hm)

/-- What has come after one more step. -/
theorem came_step {e : IngressEvent} (h : observedIngressStep cfg o e = .ok p) :
    ∀ m ∈ p.came, m ∈ o.came ∨ m ∈ o.ingress.reader.loaded := by
  rw [observedIngressStep] at h
  split at h
  · cases h
  · cases e with
    | reader result =>
        cases h
        show ∀ m ∈ o.read.came, _
        unfold ObservedIngress.read
        cases hr : o.ingress.reader with
        -- The packet is on the record from its push on.
        | pushOut a =>
            intro m hm
            exact List.mem_append.mp hm
        | _ => exact fun m hm => .inl hm
    | writer sent =>
        cases h
        show ∀ m ∈ (o.write cfg sent).came, _
        have hsame : (o.write cfg sent).came = o.came := by
          unfold ObservedIngress.write
          split
          · rfl
          · split <;> rfl
          · rfl
          · rfl
          · rfl
        rw [hsame]
        exact fun m hm => .inl hm

/-- Each step of either thread keeps the ingress ready. The queues lose no mbuf but those that a
thread loses itself, so that there is room on the free queue for every one that comes back. -/
theorem Ready.step (h : Ready cfg n o) {e : IngressEvent}
    (hstep : observedIngressStep cfg o e = .ok p) : Ready cfg n p := by
  have hing := observedIngressStep_ingress hstep
  obtain ⟨s, hs⟩ := h.calls
  obtain ⟨ptrs, hptrs⟩ := h.pointed
  have hmoves := (ingress_moves cfg).step_ok o.ingress e p.ingress hptrs.held hing
  obtain ⟨-, lost, hperm, -⟩ := hmoves
  -- The mbufs that are lost in the step are missing in what it leaves.
  have hplaces : p.ingress.places.length ≤ n := by
    have hlen := hperm.length_eq
    rw [List.length_append] at hlen
    have := h.places
    omega
  -- What came in this step is the packet that the reader had in hand.
  have hcame : ∀ m ∈ p.came, Sized m := by
    intro m hm
    rcases came_step hstep m hm with hm | hm
    · exact h.came m hm
    · exact h.reading m hm
  have hpointed := ingressStep_pointed hptrs hing
  cases e with
  | reader result =>
      obtain ⟨hsize, hwriter, hreading⟩ := readIntfStep_sized hing
      refine ⟨hs.step hstep, ⟨_, hpointed⟩, hplaces, hsize.trans h.size, hreading, ?_, hcame⟩
      rw [hwriter]
      exact h.supplied
  | writer sent =>
      obtain ⟨hsize, hreader⟩ := writeTfsStep_size hing
      have hsupplied := h.supplied.step h.queued (tfsWriterStep_of_step hing)
      refine ⟨hs.step hstep, ⟨_, hpointed⟩, hplaces, hsize.trans h.size, ?_, hsupplied, hcame⟩
      rw [hreader]
      exact h.reading

/-- The ingress is ready in every state that the threads can reach. -/
theorem ready_of_reachable (h : Reachable (observedIngressStep cfg) (.ofPool n) o) :
    Ready cfg n o :=
  h.induct (ready_ofPool cfg n) fun _ _ _ hs hstep => hs.step hstep

/-- The packets that a packet may have been cut from are short enough for `put16`. -/
theorem Sized.length_lt {m : Mbuf} (h : Sized m) : m.data.length < 2 ^ 16 := by
  have hlen : m.data.length ≤ MAXBUF - HDRSPACE := h.2
  have : MAXBUF - HDRSPACE < 2 ^ 16 := by decide
  omega

/-- The sender of the calls, with its frames. -/
theorem Ready.framed (h : Ready cfg n o) (h9 : 8 < cfg.tfsmtu) (hmax : cfg.tfsmtu ≤ MAXBUF) :
    ∃ s ks, Calls cfg o s ∧ Framed (fun p => p.length < 2 ^ 16) cfg s ks := by
  obtain ⟨s, hs⟩ := h.calls
  have hans : ∀ call ∈ o.calls, ∀ p, some p ∈ call.answers → p.data.length < 2 ^ 16 :=
    fun call hcall p hp => (h.came p (hs.answered call hcall p hp)).length_lt
  obtain ⟨ks, hks⟩ := framed_of_run h9 hmax (fun _ hp => hp) hans hs.ran
  exact ⟨s, ks, hs, hks⟩

/-- The length that `write_tfs_pkt` checks before `sendmsg` is right. -/
theorem Ready.iovlen_eq (h : Ready cfg n o) (h9 : 8 < cfg.tfsmtu) (hmax : cfg.tfsmtu ≤ MAXBUF)
    {offset : Nat} {l : Wtfs} (hw : o.ingress.writer = .send offset l) :
    iovlen (.hdr (wtfsHdr o.ingress.seq offset) :: l.iov) = cfg.tfsmtu := by
  obtain ⟨s, ks, hs, hks⟩ := h.framed h9 hmax
  have hans : ∀ p, some p ∈ o.answers → p.data.length < 2 ^ 16 :=
    fun p hp => (h.came p (hs.answering p hp)).length_lt
  -- The call under way, if `sendmsg` succeeds.
  obtain ⟨out, hout, -⟩ := writeTfsPkt_sentAs cfg h9 hmax (fun _ hp => hp) s.seq
    ⟨o.answers, true⟩ hks.leftover hks.room hks.carry hans
  have hrest := hs.rest
  rw [hw] at hrest
  rw [hrest true, writeTfsFinish, hs.seq] at hout
  by_contra hne
  rw [if_pos hne] at hout
  cases hout

/-- An mbuf in the writer's hands has room on the free queue. -/
theorem Ready.pushReset (h : Ready cfg n o) {leftover : Option Mbuf} {m : Mbuf} {freem : List Mbuf}
    (hw : o.ingress.writer = .free leftover (m :: freem)) :
    ∃ freeq, mqueuePushReset o.ingress.freeq m = .ok freeq := by
  obtain ⟨ptrs, hptrs⟩ := h.pointed
  have href : m.refcnt = 0 := by
    apply (hptrs.pointed.agrees m _).1
    simp [Ingress.mbufs, hw, TfsWriter.mbufs]
  have hroom : o.ingress.freeq.queue.length < o.ingress.freeq.size := by
    have hplaces := h.places
    rw [h.size]
    simp only [Ingress.places, hw, TfsWriter.hands, List.length_append, List.length_map,
      List.length_cons] at hplaces
    omega
  obtain ⟨freeq, hpush, -⟩ := Queue.exists_push hroom { m with data := [] }
  refine ⟨freeq, ?_⟩
  rw [mqueuePushReset, mbufReset, if_pos href]
  dsimp only
  rw [mqueuePush, hpush]

/-- `write_tfs_pkts` can always go on. -/
theorem Ready.goes (h : Ready cfg n o) (h9 : 8 < cfg.tfsmtu) (hmax : cfg.tfsmtu ≤ MAXBUF)
    (hone : cfg.oneonly = false) (sent : Bool) :
    ∃ t, writeTfsStep cfg o.ingress sent = .ok t := by
  rw [writeTfsStep]
  cases hw : o.ingress.writer with
  | call leftover =>
      dsimp only
      rw [if_neg (by simp [hone])]
      cases leftover with
      | some m => exact ⟨_, rfl⟩
      | none =>
          dsimp only
          split <;> exact ⟨_, rfl⟩
  | pack offset l =>
      dsimp only
      split
      · exact ⟨_, rfl⟩
      · split <;> exact ⟨_, rfl⟩
  | trypop offset l maxsize => exact ⟨_, rfl⟩
  | send offset l =>
      dsimp only
      -- The loop has filled the datagram to `g_tfsmtu`, so that `errx` is not reached.
      rw [if_neg (Decidable.not_not.mpr (h.iovlen_eq h9 hmax hw))]
      exact ⟨_, rfl⟩
  | free leftover freem =>
      cases freem with
      | nil => exact ⟨_, rfl⟩
      | cons m freem =>
          -- There is room for the mbuf on the free queue, since it came from there.
          obtain ⟨freeq, hpush⟩ := h.pushReset hw
          dsimp only
          rw [hpush]
          exact ⟨_, rfl⟩

/-- A step that sends adds a datagram to the record. -/
theorem write_sent_succ (sent : Bool) (hone : cfg.oneonly = false)
    (hsend : (∃ outq, o.ingress.writer = .call none ∧
        mqueueTrypop Mbuf.len o.ingress.outq 0 = (none, outq)) ∨
      ∃ offset l, o.ingress.writer = .send offset l) :
    (o.write cfg sent).sent.length = o.sent.length + 1 := by
  rcases hsend with ⟨outq, hw, hpop⟩ | ⟨offset, l, hw⟩
  · rw [ObservedIngress.write, hw]
    dsimp only
    rw [hpop]
    simp [hone]
  · rw [ObservedIngress.write, hw]
    exact List.length_append

/-- The turns that are left are bounded. -/
theorem Ready.turns_lt (h : Ready cfg n o) (h9 : 8 < cfg.tfsmtu) :
    o.ingress.writer.turns cfg.tfsmtu < n + 2 * cfg.tfsmtu := by
  have hplaces := h.places
  have hroom := h.supplied.room
  simp only [Ingress.places, List.length_append, List.length_map] at hplaces
  cases hw : o.ingress.writer with
  | free leftover freem =>
      simp only [hw, TfsWriter.hands, List.length_map, List.length_append] at hplaces
      show freem.length + (2 * (cfg.tfsmtu - 8) + 3) < _
      omega
  | call leftover =>
      show 2 * (cfg.tfsmtu - 8) + 2 < _
      omega
  | pack offset l =>
      have : l.mtu ≤ cfg.tfsmtu - 8 := by rwa [hw] at hroom
      show 2 * l.mtu + 1 < _
      omega
  | trypop offset l maxsize =>
      have : l.mtu ≤ cfg.tfsmtu - 8 := by rwa [hw] at hroom
      show 2 * l.mtu + 2 < _
      omega
  | send offset l =>
      show 0 < _
      omega

/-- Every step of `write_tfs_pkts` hands over a datagram, or it comes closer to the next one, and
`read_intf_pkts` sets nothing back. -/
theorem paced (h9 : 8 < cfg.tfsmtu) (hone : cfg.oneonly = false) :
    Paced (observedIngressStep cfg) (Ready cfg n) IngressEvent.isWriter (fun o => o.sent.length)
      (fun o => o.ingress.writer.turns cfg.tfsmtu) (n + 2 * cfg.tfsmtu) where
  keep := fun _ _ _ h hstep => h.step hstep
  rank_lt := fun _ h => h.turns_lt h9
  serves := by
    intro o e p h he hstep
    have hing := observedIngressStep_ingress hstep
    have hgrows := (observedIngressStep_sent hstep).length_le
    cases e with
    | reader result => cases he
    | writer sent =>
        have hsent : p.sent = (o.write cfg sent).sent := by
          rw [observedIngressStep, hing] at hstep
          exact (congrArg ObservedIngress.sent (Except.ok.inj hstep)).symm
        -- A turn of the writer brings it closer to its next datagram, or hands one out.
        rcases Proofs.turns_lt h.supplied (tfsWriterStep_of_step hing) with hless | hsend
        · exact .inr ⟨hgrows, hless⟩
        · left
          rw [hsent, write_sent_succ sent hone hsend]
          exact Nat.lt_succ_self _
  others := by
    intro o e p h he hstep
    have hgrows := (observedIngressStep_sent hstep).length_le
    have hing := observedIngressStep_ingress hstep
    cases e with
    | writer sent => cases he
    | reader result =>
        right
        -- A turn of the reader leaves the writer where it is.
        rw [(readIntfStep_sized hing).2.1]
        exact ⟨hgrows, Nat.le_refl _⟩

/-- Each datagram has its sequence number and the size of the tunnel. -/
theorem Ready.sent_eq (h : Ready cfg n o) (h9 : 8 < cfg.tfsmtu) (hmax : cfg.tfsmtu ≤ MAXBUF)
    {i : Nat} {d : List UInt8 × Bool} (hd : o.sent[i]? = some d) :
    ∃ offset payload, d.1 = wtfsHdr ((i + 1) % 2 ^ 32) offset ++ payload ∧ offset < 2 ^ 16 ∧
      payload.length = cfg.tfsmtu - 8 := by
  obtain ⟨s, ks, hs, hks⟩ := h.framed h9 hmax
  rw [← hs.handed, Sender.handed, List.getElem?_map, Option.map_eq_some_iff] at hd
  obtain ⟨c, hc, rfl⟩ := hd
  have hi : i < ks.length := by
    rw [← hks.length]
    exact (List.getElem?_eq_some_iff.mp hc).1
  have hsends := hks.sends i c ks[i] hc (List.getElem?_eq_getElem hi)
  refine ⟨_, _, ?_, hsends.owes, hsends.length⟩
  rw [hsends.datagram, Option.getD_some]

end Step

/-- Outside single-only mode, and `pps_wait` apart, `write_tfs_pkts` never waits and never stops,
whatever `read_intf_pkts` does. Among any `n * (INNERQSZ + 2 * g_tfsmtu)` of its steps at least `n`
hand a datagram to the socket, in every interleaving, and every datagram has the size of the tunnel
and the next sequence number. `pps_wait` is not one of these steps: when it lets the sender go on is
`keeps_sending_iff`. -/
theorem constant_rate (cfg : Config) (h9 : 8 < cfg.tfsmtu) (hmax : cfg.tfsmtu ≤ MAXBUF)
    (hone : cfg.oneonly = false) (o : ObservedIngress)
    (h : Reachable (observedIngressStep cfg) .init o) :
    (∀ sent, ∃ p, observedIngressStep cfg o (.writer sent) = .ok p) ∧
      (∀ n es p, run (observedIngressStep cfg) o es = .ok p →
        n * (INNERQSZ + 2 * cfg.tfsmtu) ≤ es.countP IngressEvent.isWriter →
          o.sent.length + n ≤ p.sent.length) ∧
      ∀ i d, o.sent[i]? = some d → ∃ offset payload,
        d.1 = wtfsHdr ((i + 1) % 2 ^ 32) offset ++ payload ∧ offset < 2 ^ 16 ∧
          payload.length = cfg.tfsmtu - 8 := by
  have hready : Ready cfg INNERQSZ o := ready_of_reachable h
  refine ⟨?_, ?_, ?_⟩
  · intro sent
    obtain ⟨t, ht⟩ := hready.goes h9 hmax hone sent
    exact ⟨_, by rw [observedIngressStep]; simp only [ingressStep, ht]; rfl⟩
  · intro n es p hrun hn
    exact (paced h9 hone).often hready hrun hn
  · intro i d hd
    exact hready.sent_eq h9 hmax hd

/-- After `readAndSend` only `write_tfs_pkts` runs. -/
theorem constant_rate_turns : ∃ o p,
    run (observedIngressStep ⟨19, false, false⟩) .init readAndSend = .ok o ∧
      (∃ q, observedIngressStep ⟨19, false, false⟩ o (.writer true) = .ok q) ∧
      run (observedIngressStep ⟨19, false, false⟩) o (List.replicate 294 (.writer true)) = .ok p ∧
      o.sent.length + 1 ≤ p.sent.length ∧
      ∃ offset payload,
        [0, 0, 0, 1, 0, 0, 0, 0, 0x45, 0, 0, 5, 1, 0, 0, 0, 0, 0, 0] =
          wtfsHdr ((0 + 1) % 2 ^ 32) offset ++ payload ∧ payload.length = 11 := by
  have hends : (run (observedIngressStep ⟨19, false, false⟩) .init
      (readAndSend ++ List.replicate 294 (.writer true))).map (fun p => p.sent.length) =
        .ok 285 := by decide +kernel
  obtain ⟨p, hp, -⟩ := map_eq_ok.mp hends
  obtain ⟨o, ho, hrun⟩ := run_append.mp hp
  have hfirst : (run (observedIngressStep ⟨19, false, false⟩) .init readAndSend).map
      (fun o => o.sent) =
        .ok [([0, 0, 0, 1, 0, 0, 0, 0, 0x45, 0, 0, 5, 1, 0, 0, 0, 0, 0, 0], true)] := by
    decide +kernel
  rw [ho] at hfirst
  have hsent : o.sent = _ := Except.ok.inj hfirst
  -- The theorem, from the state that the first part of the run reaches.
  obtain ⟨hgoes, hpaced, hsize⟩ := constant_rate ⟨19, false, false⟩ (by decide) (by decide) rfl o
    ⟨_, ho⟩
  have hzero : o.sent[0]? =
      some ([0, 0, 0, 1, 0, 0, 0, 0, 0x45, 0, 0, 5, 1, 0, 0, 0, 0, 0, 0], true) := by
    rw [hsent]
    rfl
  obtain ⟨offset, payload, heq, -, hlen⟩ := hsize 0 _ hzero
  have hturns : 1 * (INNERQSZ + 2 * 19) ≤
      (List.replicate 294 (IngressEvent.writer true)).countP IngressEvent.isWriter := by
    rw [List.countP_replicate]
    decide
  exact ⟨o, p, ho, hgoes true, hrun, hpaced 1 _ p hrun hturns, offset, payload, heq, hlen⟩

end Proofs

end Iptfs
