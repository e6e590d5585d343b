import Iptfs.Lib.Conserve
import Iptfs.Model.Ingress

/-!
# `Iptfs.Proofs.IngressBuffers`: the buffers of the ingress

`Ingress.places` lists the buffers by where they are: the free queue, the outq, the hands of
`read_intf_pkts`, and those of `write_tfs_pkt`. `Conserved` says that each of the `INNERQSZ`
buffers is there once.

Two steps lose a buffer. After a zero read `read_intf_pkts` goes on without it. And where
`g_tfsmtu` is 14 or less, the packing loop pads at once, and `write_tfs_pkt` returns with
the packet in `m`. `Keeps` is the condition on a step that excludes the two, and
`conserved_iff_keeps` is the main result.
-/

set_option autoImplicit false

namespace Iptfs

/-- The buffers in the hands of `read_intf_pkts`. -/
def IntfReader.hands : IntfReader → List Nat
  | .pop => []
  | .read m => [m.id]
  | .pushFree m => [m.id]
  | .pushOut m => [m.id]

/-- The buffers in the variables of the packing loop: `m`, `efreem` and `*leftover`. -/
def Wtfs.hands (l : Wtfs) : List Nat :=
  (l.m.toList ++ (l.efreem ++ l.leftover.toList)).map Mbuf.id

/-- The buffers in the hands of `write_tfs_pkt`: being packed, to be freed, or leftover. -/
def TfsWriter.hands : TfsWriter → List Nat
  | .call leftover => leftover.toList.map Mbuf.id
  | .pack _ l => l.hands
  | .trypop _ l _ => l.hands
  | .send _ l => l.hands
  | .free leftover freem => (freem ++ leftover.toList).map Mbuf.id

/-- The buffers, by where they are. -/
def Ingress.places (s : Ingress) : List Nat :=
  s.freeq.queue.map Mbuf.id ++ (s.outq.queue.map Mbuf.id ++ (s.reader.hands ++ s.writer.hands))

/-- Each of the `INNERQSZ` buffers is in one place, once. -/
def Ingress.Conserved (s : Ingress) : Prop := s.places.Perm (List.range INNERQSZ)

/-- The step loses no buffer: `read` does not return zero, and `write_tfs_pkt` does not come
to its `sendmsg` where `g_tfsmtu` is 14 or less. -/
def Keeps (cfg : Config) (s : Ingress) : IngressEvent → Prop
  | .reader result => ∀ m, s.reader = .read m → result ≠ some []
  | .writer _ => ∀ offset l, s.writer = .send offset l → 14 < cfg.tfsmtu

namespace Proofs

open Iptfs.Lib

/-! ### The queues -/

/-- `mqueue_trypop` takes the mbuf at the head of the list or nothing, and a packet that is too
long for the call stays. -/
theorem mqueueTrypop_queue {mq mq' : Queue Mbuf} {maxsize : Nat} {m : Option Mbuf}
    (h : mqueueTrypop Mbuf.len mq maxsize = (m, mq')) : mq.queue = m.toList ++ mq'.queue := by
  rw [mqueueTrypop] at h
  cases hpop : mq.pop with
  | none =>
      rw [hpop] at h
      cases h
      rfl
  | some p =>
      obtain ⟨m', rest⟩ := p
      rw [hpop] at h
      by_cases hmax : maxsize ≠ 0 ∧ m'.len > maxsize
      · simp only [if_pos hmax] at h
        cases h
        rfl
      · simp only [if_neg hmax] at h
        cases h
        exact (Queue.pop_eq_some.mp hpop).1

/-- The mbuf that `mqueue_push` resets comes to the top of the queue. -/
theorem mqueuePushReset_ok {mq mq' : Queue Mbuf} {m : Mbuf}
    (h : mqueuePushReset mq m = .ok mq') : mq'.queue = { m with data := [] } :: mq.queue := by
  rw [mqueuePushReset, mbufReset] at h
  by_cases href : m.refcnt = 0
  · rw [if_pos href] at h
    cases hpush : mqueuePush mq { m with data := [] } with
    | none =>
        simp only [hpush] at h
        cases h
    | some q =>
        simp only [hpush] at h
        cases h
        exact (Queue.push_eq_some.mp hpush).1
  · rw [if_neg href] at h
    cases h

/-- And so under its address. -/
theorem mqueuePushReset_queue {mq mq' : Queue Mbuf} {m : Mbuf}
    (h : mqueuePushReset mq m = .ok mq') :
    mq'.queue.map Mbuf.id = m.id :: mq.queue.map Mbuf.id := by
  rw [mqueuePushReset_ok h]
  rfl

/-! ### The packing loop -/

/-- The variables of the packing loop at its test. While there is room, there is no
leftover yet. A packet in hand has room, unless `g_tfsmtu` is 14 or less, where it stays in
hand to the end. -/
structure Packing (cfg : Config) (l : Wtfs) : Prop where
  leftover : l.mtu ≠ 0 → l.leftover = none
  roomy : 14 < cfg.tfsmtu → l.m ≠ none → 6 < l.mtu
  tight : cfg.tfsmtu ≤ 14 → l.m ≠ none ∧ l.mtu ≤ 6

/-- The variables before the `mqueue_trypop` at the end of a pass. -/
structure Popping (cfg : Config) (l : Wtfs) : Prop where
  roomy : 14 < cfg.tfsmtu
  m : l.m = none
  leftover : l.leftover = none
  mtu : 6 < l.mtu

/-- The loop begins with the first packet in hand, in a datagram that is empty but for its
header. -/
theorem packing_wtfsEnter (cfg : Config) (m : Mbuf) (taken : List Mbuf) :
    Packing cfg (wtfsEnter cfg m taken) where
  leftover := fun _ => rfl
  roomy := by
    intro h _
    show 6 < cfg.tfsmtu - 8
    omega
  tight := by
    intro h
    refine ⟨Option.some_ne_none m, ?_⟩
    show cfg.tfsmtu - 8 ≤ 6
    omega

/-- Whatever `mqueue_trypop` returns, there is room for it: it is only asked where more than 6
bytes are left. -/
theorem Popping.take {cfg : Config} {l : Wtfs} (h : Popping cfg l) (m : Option Mbuf) :
    Packing cfg (l.take m) where
  leftover := fun _ => h.leftover
  roomy := fun _ _ => h.mtu
  tight := by
    intro hle
    have := h.roomy
    omega

/-- A pass of the loop keeps what it has in hand. -/
theorem packOnce_hands {cfg : Config} {l : Wtfs} (h : Packing cfg l) (hmtu : l.mtu ≠ 0) :
    l.hands.Perm (packOnce cfg l).1.hands ∧
      ((packOnce cfg l).2 = none → Packing cfg (packOnce cfg l).1) ∧
      ((packOnce cfg l).2 ≠ none → Popping cfg (packOnce cfg l).1) := by
  have hleft := h.leftover hmtu
  cases hm : l.m with
  | none =>
      -- Pad. Nothing is in hand.
      have hroomy : ¬ cfg.tfsmtu ≤ 14 := fun hle => (h.tight hle).1 hm
      have hpass : packOnce cfg l =
          ({ l with iov := l.iov ++ [.pad l.mtu], mtu := 0 }, none) := by
        rw [packOnce, hm]
      rw [hpass]
      refine ⟨List.Perm.refl _, fun _ => ⟨fun h0 => absurd rfl h0, ?_, ?_⟩,
        fun hno => absurd rfl hno⟩
      · intro _ hsome
        exact absurd hm hsome
      · intro hle
        exact absurd hle hroomy
  | some m =>
      by_cases h6 : l.mtu ≤ 6
      · -- Pad, with the packet in hand.
        have hpass : packOnce cfg l =
            ({ l with iov := l.iov ++ [.pad l.mtu], mtu := 0 }, none) := by
          simp only [packOnce, hm, h6, if_true]
        rw [hpass]
        refine ⟨List.Perm.refl _, fun _ => ⟨fun h0 => absurd rfl h0, ?_, ?_⟩,
          fun hno => absurd rfl hno⟩
        · intro hlt hsome
          have := h.roomy hlt hsome
          omega
        · intro hle
          exact ⟨(h.tight hle).1, Nat.zero_le 6⟩
      · have hroomy : 14 < cfg.tfsmtu := by
          by_contra hle
          have := (h.tight (by omega)).2
          omega
        by_cases hbig : m.len > l.mtu
        · -- The packet is cut, and the rest of it is the leftover.
          have hpass : packOnce cfg l = ({ l with
              iov := l.iov ++ [.mbuf m l.mtu]
              leftover := some { m with data := m.data.drop l.mtu }
              m := none
              mtu := 0 }, none) := by
            simp only [packOnce, hm, h6, if_false, hbig, if_true]
          rw [hpass]
          refine ⟨?_, fun _ => ⟨fun h0 => absurd rfl h0, fun _ hsome => absurd rfl hsome, ?_⟩,
            fun hno => absurd rfl hno⟩
          · simp only [Wtfs.hands, hm, hleft, Option.toList_some, Option.toList_none,
              List.append_nil, List.nil_append, List.map_append, List.map_cons, List.map_nil]
            exact List.perm_append_comm
          · intro hle
            omega
        · -- The packet is packed, and goes to `efreem`.
          have hpass : packOnce cfg l = ({ l with
              iov := l.iov ++ [.mbuf m m.len]
              efreem := l.efreem ++ [m]
              m := none
              mtu := l.mtu - m.len },
            if l.mtu - m.len > 6 ∧ cfg.oneonly = false then
              some (if cfg.dontfrag then l.mtu - m.len else 0)
            else none) := by
            simp only [packOnce, hm, h6, if_false, hbig]
          rw [hpass]
          refine ⟨?_, fun _ => ⟨fun _ => hleft, fun _ hsome => absurd rfl hsome, ?_⟩, ?_⟩
          · simp only [Wtfs.hands, hm, hleft, Option.toList_some, Option.toList_none,
              List.append_nil, List.nil_append, List.map_append, List.map_cons, List.map_nil]
            exact List.perm_append_comm
          · intro hle
            omega
          · intro hpop
            by_cases hmore : l.mtu - m.len > 6 ∧ cfg.oneonly = false
            · exact ⟨hroomy, rfl, hleft, hmore.1⟩
            · exact absurd (if_neg hmore) hpop

/-! ### The invariant -/

/-- What the packing loop has in hand, where the writer is in it. -/
def Held (cfg : Config) : TfsWriter → Prop
  | .call _ => True
  | .pack _ l => Packing cfg l
  | .trypop _ l _ => Popping cfg l
  | .send _ l => 14 < cfg.tfsmtu ↔ l.m = none
  | .free _ _ => True

/-- A step of `read_intf_pkts` loses a buffer where `read` returns zero. -/
theorem readIntfStep_moves {s t : Ingress} {result : Option (List UInt8)}
    (hstep : readIntfStep s result = .ok t) :
    t.writer = s.writer ∧ ∃ lost, s.places.Perm (lost ++ t.places) ∧
      ((∀ m, s.reader = .read m → result ≠ some []) ↔ lost = []) := by
  rw [readIntfStep] at hstep
  cases hreader : s.reader with
  | pop =>
      simp only [hreader] at hstep
      cases hpop : mqueuePop s.freeq with
      | none =>
          simp only [hpop] at hstep
          cases hstep
      | some p =>
          obtain ⟨m, freeq⟩ := p
          simp only [hpop] at hstep
          cases hstep
          refine ⟨rfl, [], ?_, iff_of_true (fun m' h' => by cases h') rfl⟩
          have hq := (Queue.pop_eq_some.mp hpop).1
          rw [List.nil_append, List.perm_iff_count]
          intro a
          simp only [Ingress.places, hreader, hq, IntfReader.hands, List.map_cons,
            List.count_append, List.count_cons, List.count_nil]
          omega
  | read m =>
      simp only [hreader] at hstep
      cases result with
      | none =>
          cases hstep
          refine ⟨rfl, [], ?_, iff_of_true (fun m' _ h' => by cases h') rfl⟩
          simp only [Ingress.places, hreader, IntfReader.hands]
          exact List.Perm.refl _
      | some bytes =>
          have hnil : bytes.take (MAXBUF - HDRSPACE) = [] ↔ bytes = [] := by
            rw [List.take_eq_nil_iff]
            exact or_iff_right (by decide)
          by_cases hzero : bytes = []
          · -- A zero read. The buffer is lost.
            simp only [hnil.mpr hzero, if_true] at hstep
            cases hstep
            refine ⟨rfl, [m.id], ?_, iff_of_false (fun h => h m rfl (by rw [hzero])) (by simp)⟩
            rw [List.perm_iff_count]
            intro a
            simp only [Ingress.places, hreader, IntfReader.hands, List.count_append,
              List.count_cons, List.count_nil]
            omega
          · simp only [mt hnil.mp hzero, if_false] at hstep
            cases hstep
            refine ⟨rfl, [], ?_, iff_of_true (fun _ _ h => hzero (Option.some.inj h)) rfl⟩
            simp only [Ingress.places, hreader, IntfReader.hands]
            exact List.Perm.refl _
  | pushFree m =>
      simp only [hreader] at hstep
      cases hpush : mqueuePushReset s.freeq m with
      | error e =>
          simp only [hpush] at hstep
          cases hstep
      | ok freeq =>
          simp only [hpush] at hstep
          cases hstep
          refine ⟨rfl, [], ?_, iff_of_true (fun m' h' => by cases h') rfl⟩
          have hq := mqueuePushReset_queue hpush
          rw [List.nil_append, List.perm_iff_count]
          intro a
          simp only [Ingress.places, hreader, hq, IntfReader.hands,
            List.count_append, List.count_cons, List.count_nil]
          omega
  | pushOut m =>
      simp only [hreader] at hstep
      cases hpush : mqueuePush s.outq m with
      | none =>
          simp only [hpush] at hstep
          cases hstep
      | some outq =>
          simp only [hpush] at hstep
          cases hstep
          refine ⟨rfl, [], ?_, iff_of_true (fun m' h' => by cases h') rfl⟩
          have hq := (Queue.push_eq_some.mp hpush).1
          rw [List.nil_append, List.perm_iff_count]
          intro a
          simp only [Ingress.places, hreader, hq, IntfReader.hands, List.map_cons,
            List.count_append, List.count_cons, List.count_nil]
          omega

/-- What a step of the writer does to the buffers: those it loses, it loses where `write_tfs_pkt`
gets to `sendmsg` with a packet still in `m`. -/
def WriterMoves (cfg : Config) (s t : Ingress) (sent : Bool) : Prop :=
  Held cfg t.writer ∧ ∃ lost, s.places.Perm (lost ++ t.places) ∧
    (Keeps cfg s (.writer sent) ↔ lost = [])

/-- A step of the writer that leaves `sendmsg` alone loses nothing. -/
theorem writeTfsStep_quiet {cfg : Config} {s t : Ingress} {sent : Bool} (hheld : Held cfg t.writer)
    (hno : ∀ offset l, s.writer ≠ .send offset l) (hperm : s.places.Perm t.places) :
    WriterMoves cfg s t sent :=
  ⟨hheld, [], hperm, iff_of_true (fun offset l h => absurd h (hno offset l)) rfl⟩

/-- The start of `write_tfs_pkt`, with the leftover or with a packet from the outq. -/
theorem callStep_moves {cfg : Config} {s t : Ingress} {sent : Bool} {leftover : Option Mbuf}
    (hwriter : s.writer = .call leftover) (hstep : writeTfsStep cfg s sent = .ok t) :
    WriterMoves cfg s t sent := by
  rw [writeTfsStep] at hstep
  simp only [hwriter] at hstep
  split at hstep
  · cases hstep
  · cases leftover with
    | some m =>
        cases hstep
        refine writeTfsStep_quiet (packing_wtfsEnter cfg m []) (by simp [hwriter]) ?_
        simp only [Ingress.places, hwriter, TfsWriter.hands, Wtfs.hands, wtfsEnter]
        exact List.Perm.refl _
    | none =>
        dsimp only at hstep
        split at hstep
        · rename_i m outq hpop
          cases hstep
          have hq := mqueueTrypop_queue hpop
          refine writeTfsStep_quiet (packing_wtfsEnter cfg m [m]) (by simp [hwriter]) ?_
          rw [List.perm_iff_count]
          intro a
          simp only [Ingress.places, hwriter, hq, TfsWriter.hands, Wtfs.hands, wtfsEnter,
            Option.toList_some, Option.toList_none, List.append_nil, List.map_append,
            List.map_cons, List.map_nil, List.count_append]
          omega
        · cases hstep
          refine writeTfsStep_quiet trivial (by simp [hwriter]) ?_
          simp only [Ingress.places, hwriter]
          exact List.Perm.refl _

/-- The test of the packing loop, and a pass of it. -/
theorem packStep_moves {cfg : Config} {s t : Ingress} {sent : Bool} {offset : Nat} {l : Wtfs}
    (h : Held cfg s.writer) (hwriter : s.writer = .pack offset l)
    (hstep : writeTfsStep cfg s sent = .ok t) : WriterMoves cfg s t sent := by
  rw [writeTfsStep] at hstep
  simp only [hwriter] at h hstep
  by_cases hmtu : l.mtu = 0
  · rw [if_pos hmtu] at hstep
    cases hstep
    refine writeTfsStep_quiet ?_ (by simp [hwriter]) ?_
    · -- The loop has ended.
      constructor
      · intro hlt
        by_contra hsome
        have := h.roomy hlt hsome
        omega
      · intro hnone
        by_contra hle
        exact (h.tight (by omega)).1 hnone
    · simp only [Ingress.places, hwriter, TfsWriter.hands]
      exact List.Perm.refl _
  · rw [if_neg hmtu] at hstep
    obtain ⟨hperm, hpack, hpop⟩ := packOnce_hands h hmtu
    split at hstep
    · rename_i l' hpass
      cases hstep
      rw [hpass] at hperm hpack
      refine writeTfsStep_quiet (hpack rfl) (by simp [hwriter]) ?_
      simp only [Ingress.places, hwriter, TfsWriter.hands]
      exact ((hperm.append_left _).append_left _).append_left _
    · rename_i l' maxsize hpass
      cases hstep
      rw [hpass] at hperm hpop
      refine writeTfsStep_quiet (hpop (Option.some_ne_none _)) (by simp [hwriter]) ?_
      simp only [Ingress.places, hwriter, TfsWriter.hands]
      exact ((hperm.append_left _).append_left _).append_left _

/-- The `sendmsg`: what is still in `m` is lost. -/
theorem sendStep_moves {cfg : Config} {s t : Ingress} {sent : Bool} {offset : Nat} {l : Wtfs}
    (h : Held cfg s.writer) (hwriter : s.writer = .send offset l)
    (hstep : writeTfsStep cfg s sent = .ok t) : WriterMoves cfg s t sent := by
  rw [writeTfsStep] at hstep
  simp only [hwriter] at h hstep
  split at hstep
  · cases hstep
  · cases hstep
    refine ⟨?_, l.m.toList.map Mbuf.id, ?_, ?_⟩
    · cases sent <;> trivial
    · rw [List.perm_iff_count]
      intro a
      cases sent <;>
        simp only [Ingress.places, hwriter, TfsWriter.hands, Wtfs.hands, if_true,
          Bool.false_eq_true, if_false, Option.toList_none, List.append_nil, List.map_append,
          List.count_append] <;> omega
    · constructor
      · intro hkeep
        rw [h.mp (hkeep offset l hwriter)]
        rfl
      · intro hnil _ _ _
        apply h.mpr
        cases hm : l.m with
        | none => rfl
        | some m =>
            rw [hm] at hnil
            cases hnil

/-- The loop after `sendmsg`, in which the packed buffers are freed. -/
theorem freeStep_moves {cfg : Config} {s t : Ingress} {sent : Bool} {leftover : Option Mbuf}
    {freem : List Mbuf} (hwriter : s.writer = .free leftover freem)
    (hstep : writeTfsStep cfg s sent = .ok t) : WriterMoves cfg s t sent := by
  rw [writeTfsStep] at hstep
  cases freem with
  | nil =>
      simp only [hwriter] at hstep
      cases hstep
      refine writeTfsStep_quiet trivial (by simp [hwriter]) ?_
      simp only [Ingress.places, hwriter, TfsWriter.hands]
      exact List.Perm.refl _
  | cons m freem =>
      simp only [hwriter] at hstep
      cases hpush : mqueuePushReset s.freeq m with
      | error e =>
          simp only [hpush] at hstep
          cases hstep
      | ok freeq =>
          simp only [hpush] at hstep
          cases hstep
          have hq := mqueuePushReset_queue hpush
          refine writeTfsStep_quiet trivial (by simp [hwriter]) ?_
          rw [List.perm_iff_count]
          intro a
          simp only [Ingress.places, hwriter, hq, TfsWriter.hands, List.cons_append,
            List.map_cons, List.count_append, List.count_cons]
          omega

/-- A step of the writer, by where the thread is. -/
theorem writeTfsStep_moves {cfg : Config} {s t : Ingress} {sent : Bool}
    (h : Held cfg s.writer) (hstep : writeTfsStep cfg s sent = .ok t) :
    WriterMoves cfg s t sent := by
  cases hwriter : s.writer with
  | call leftover => exact callStep_moves hwriter hstep
  | pack offset l => exact packStep_moves h hwriter hstep
  | send offset l => exact sendStep_moves h hwriter hstep
  | free leftover freem => exact freeStep_moves hwriter hstep
  | trypop offset l maxsize =>
      rw [writeTfsStep] at hstep
      simp only [hwriter] at h hstep
      obtain ⟨m, outq, hpop⟩ : ∃ m outq, mqueueTrypop Mbuf.len s.outq maxsize = (m, outq) :=
        ⟨_, _, rfl⟩
      rw [hpop] at hstep
      cases hstep
      have hq := mqueueTrypop_queue hpop
      refine writeTfsStep_quiet (h.take m) (by simp [hwriter]) ?_
      rw [List.perm_iff_count]
      intro a
      simp only [Ingress.places, hwriter, hq, TfsWriter.hands, Wtfs.hands, Wtfs.take, h.m,
        Option.toList_none, List.nil_append, List.map_append, List.count_append]
      omega

/-! ### Runs -/

/-- Every step moves buffers about, and loses one where `Keeps` fails. -/
theorem ingress_moves (cfg : Config) :
    Moves (ingressStep cfg) (fun s => Held cfg s.writer) Ingress.places (Keeps cfg) where
  step_ok := by
    intro s e t hs hstep
    cases e with
    | reader result =>
        obtain ⟨hwriter, hlost⟩ := readIntfStep_moves hstep
        refine ⟨?_, hlost⟩
        rw [hwriter]
        exact hs
    | writer sent => exact writeTfsStep_moves hs hstep

/-- All the mbufs are on the free queue at first, each one once. -/
theorem places_init : Ingress.init.places.Perm (List.range INNERQSZ) := by
  have hid : Ingress.init.places = (List.range INNERQSZ).reverse := by
    simp [Ingress.places, Ingress.init, mqueueNewFreeq, Queue.empty, IntfReader.hands,
      TfsWriter.hands, Function.comp_def]
  rw [hid]
  exact List.reverse_perm _

/-- When the ingress keeps its buffers. In the state that any interleaving of
`read_intf_pkts` and `write_tfs_pkts` reaches, whatever `read` and `sendmsg` returned, each
of the buffers is in one place exactly when no step of the run lost one: no `read` returned
zero, and `write_tfs_pkt` did not get to `sendmsg` with a `g_tfsmtu` of 14 or less. -/
theorem conserved_iff_keeps (cfg : Config) (es : List IngressEvent) (s : Ingress)
    (hrun : run (ingressStep cfg) Ingress.init es = .ok s) :
    s.Conserved ↔ Along (ingressStep cfg) (Keeps cfg) Ingress.init es := by
  have hiff := (ingress_moves cfg).conserved_iff (s := Ingress.init) trivial hrun
  rw [← hiff]
  constructor
  · intro h
    exact places_init.trans h.symm
  · intro h
    exact h.symm.trans places_init

/-- Datagrams of 30 bytes. A `read` fails, then a packet of 40 bytes is read. `write_tfs_pkt` cuts
it and sends the first 22 bytes, and another call sends the rest with padding and frees the mbuf. -/
def cutSentFreed : List IngressEvent :=
  [.reader none, .reader none, .reader none] ++
    [.reader none, .reader (some (List.replicate 40 0x45)), .reader none] ++
    List.replicate 12 (.writer true)

/-- Applied where a packet is cut over two datagrams, sent and freed: the writer has had its mbuf in
hand over a call, and given it back. -/
theorem conserved_iff_keeps_cut : ∃ s,
    run (ingressStep ⟨30, false, false⟩) Ingress.init cutSentFreed = .ok s ∧
      s.writer = .call none ∧ s.seq = 3 ∧ s.freeq.queue.length = INNERQSZ ∧ s.Conserved := by
  have hends : (run (ingressStep ⟨30, false, false⟩) Ingress.init cutSentFreed).map
      (fun s => (s.writer, s.seq, s.freeq.queue.length)) = .ok (.call none, 3, INNERQSZ) := by
    decide +kernel
  obtain ⟨s, hs, hend⟩ := map_eq_ok.mp hends
  obtain ⟨hwriter, hrest⟩ := Prod.mk.inj hend
  obtain ⟨hseq, hfree⟩ := Prod.mk.inj hrest
  refine ⟨s, hs, hwriter, hseq, hfree, (conserved_iff_keeps _ _ s hs).mpr ?_⟩
  refine along_of_always fun e he t => ?_
  cases e with
  | writer sent => exact fun _ _ _ => by decide
  | reader result =>
      rintro _ _ rfl
      revert he
      decide

/-- A `read` that returns zero. -/
theorem not_conserved_zero : ¬ ∀ cfg : Config, 8 < cfg.tfsmtu → ∀ es s,
    run (ingressStep cfg) Ingress.init es = .ok s → s.Conserved := by
  intro h
  have hperm := h ⟨1500, false, false⟩ (by decide) [.reader none, .reader (some [])] _ rfl
  exact absurd hperm.length_eq (by decide +kernel)

end Proofs

end Iptfs
