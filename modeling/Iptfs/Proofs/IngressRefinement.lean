import Iptfs.Model.Observed
import Iptfs.Proofs.IngressBuffers
import Iptfs.Proofs.SenderFrames

/-!
# `Iptfs.Proofs.IngressRefinement`: the sender against its queue

`Iptfs.Model.WriteTfs` has `write_tfs_pkt` as a function of the answers that its `mqueue_trypop`
calls get, whatever they are. `Iptfs.Model.Ingress` has it in small steps, against a queue that
`read_intf_pkts` pushes on in between. This module connects the two: the steps of the thread are
calls of the function, and their answers are what the queue gave.

`Calls` is the relation. Between two calls the thread has the sequence number and the leftover of
the loop. In a call, whatever the queue will answer, the function goes on from the variables of
the thread (`Rest`).

`ingress_refines` is the result: the datagrams are those of the calls, and each packet that came
was taken by one of the calls, or it is still on the queue.
-/

set_option autoImplicit false

namespace Iptfs

/-- The packets that the call of `write_tfs_pkt` under way has taken from the queue. -/
def TfsWriter.took : TfsWriter → List Mbuf
  | .pack _ l | .trypop _ l _ | .send _ l => l.taken
  | .call _ | .free _ _ => []

/-- What went to `send` or `sendmsg`, and whether that succeeded. -/
def Sender.handed (s : Sender) : List (List UInt8 × Bool) :=
  s.sends.map fun c => (c.2.datagram.getD [], c.1.sent)

namespace Proofs

open Iptfs.Lib

/-! ### The steps of the ingress, taken apart -/

/-- How a step of `read_intf_pkts` goes. -/
inductive IntfReaderStep (s : Ingress) : Ingress → Prop
  | quiet {freeq : Queue Mbuf} {r : IntfReader} (hr : ∀ m, s.reader ≠ .pushOut m) :
      IntfReaderStep s { s with freeq := freeq, reader := r }
  | pushOut {m : Mbuf} {outq : Queue Mbuf} (hr : s.reader = .pushOut m)
      (hpush : mqueuePush s.outq m = some outq) :
      IntfReaderStep s { s with outq := outq, reader := .pop }

/-- How a step of `write_tfs_pkts` goes. -/
inductive TfsWriterStep (cfg : Config) (s : Ingress) (sent : Bool) : Ingress → Prop
  | leftover {m : Mbuf} (hw : s.writer = .call (some m)) :
      TfsWriterStep cfg s sent
        { s with writer := .pack (m.len % 2 ^ 16) (wtfsEnter cfg m []) }
  | first {m : Mbuf} {outq : Queue Mbuf} (hw : s.writer = .call none)
      (hpop : mqueueTrypop Mbuf.len s.outq 0 = (some m, outq)) :
      TfsWriterStep cfg s sent { s with outq := outq, writer := .pack 0 (wtfsEnter cfg m [m]) }
  | empty {outq : Queue Mbuf} (hw : s.writer = .call none)
      (hpop : mqueueTrypop Mbuf.len s.outq 0 = (none, outq)) :
      TfsWriterStep cfg s sent
        { s with
          writer := .call none
          seq := if cfg.oneonly then s.seq else (writeEmptyTfsPkt s.seq cfg.tfsmtu).2 }
  | ended {offset : Nat} {l : Wtfs} (hw : s.writer = .pack offset l) (hmtu : l.mtu = 0) :
      TfsWriterStep cfg s sent { s with writer := .send offset l }
  | pass {offset : Nat} {l l' : Wtfs} (hw : s.writer = .pack offset l) (hmtu : l.mtu ≠ 0)
      (honce : packOnce cfg l = (l', none)) :
      TfsWriterStep cfg s sent { s with writer := .pack offset l' }
  | ask {offset maxsize : Nat} {l l' : Wtfs} (hw : s.writer = .pack offset l) (hmtu : l.mtu ≠ 0)
      (honce : packOnce cfg l = (l', some maxsize)) :
      TfsWriterStep cfg s sent { s with writer := .trypop offset l' maxsize }
  | trypop {offset maxsize : Nat} {l : Wtfs} {m : Option Mbuf} {outq : Queue Mbuf}
      (hw : s.writer = .trypop offset l maxsize)
      (hpop : mqueueTrypop Mbuf.len s.outq maxsize = (m, outq)) :
      TfsWriterStep cfg s sent { s with outq := outq, writer := .pack offset (l.take m) }
  | send {offset : Nat} {l : Wtfs} (hw : s.writer = .send offset l)
      (hlen : iovlen (.hdr (wtfsHdr s.seq offset) :: l.iov) = cfg.tfsmtu) :
      TfsWriterStep cfg s sent
        { s with
          seq := (s.seq + 1) % 2 ^ 32
          writer :=
            if sent then .free l.leftover l.efreem
            else .free none (l.efreem ++ l.leftover.toList) }
  | freed {leftover : Option Mbuf} (hw : s.writer = .free leftover []) :
      TfsWriterStep cfg s sent { s with writer := .call leftover }
  | free {leftover : Option Mbuf} {m : Mbuf} {freem : List Mbuf} {freeq : Queue Mbuf}
      (hw : s.writer = .free leftover (m :: freem)) :
      TfsWriterStep cfg s sent { s with freeq := freeq, writer := .free leftover freem }

/-- Every step of `read_intf_pkts` goes in one of these ways. -/
theorem intfReaderStep_of_step {s t : Ingress} {result : Option (List UInt8)}
    (h : readIntfStep s result = .ok t) : IntfReaderStep s t := by
  rw [readIntfStep] at h
  cases hr : s.reader with
  | pop =>
      simp only [hr] at h
      split at h
      · cases h
      · cases h
        exact .quiet (by simp [hr])
  | read m =>
      simp only [hr] at h
      split at h
      · cases h
        exact .quiet (by simp [hr])
      · split at h
        · cases h
          exact .quiet (by simp [hr])
        · cases h
          exact .quiet (by simp [hr])
  | pushFree m =>
      simp only [hr] at h
      split at h
      · cases h
      · cases h
        exact .quiet (by simp [hr])
  | pushOut m =>
      simp only [hr] at h
      split at h
      · cases h
      · rename_i outq hpush
        cases h
        exact .pushOut hr hpush

/-- Every step of `write_tfs_pkts` goes in one of these ways. -/
theorem tfsWriterStep_of_step {cfg : Config} {s t : Ingress} {sent : Bool}
    (h : writeTfsStep cfg s sent = .ok t) : TfsWriterStep cfg s sent t := by
  rw [writeTfsStep] at h
  cases hw : s.writer with
  | call leftover =>
      simp only [hw] at h
      split at h
      · cases h
      · cases leftover with
        | some m =>
            cases h
            exact .leftover hw
        | none =>
            dsimp only at h
            split at h
            · rename_i m outq hpop
              cases h
              exact .first hw hpop
            · rename_i outq hpop
              cases h
              exact .empty hw hpop
  -- The test of the loop, or a pass of it.
  | pack offset l =>
      simp only [hw] at h
      split at h
      · rename_i hmtu
        cases h
        exact .ended hw hmtu
      · rename_i hmtu
        split at h
        · rename_i l' honce
          cases h
          exact .pass hw hmtu honce
        · rename_i l' maxsize honce
          cases h
          exact .ask hw hmtu honce
  | trypop offset l maxsize =>
      simp only [hw] at h
      cases hpop : mqueueTrypop Mbuf.len s.outq maxsize with
      | mk m outq =>
          rw [hpop] at h
          cases h
          exact .trypop hw hpop
  | send offset l =>
      simp only [hw] at h
      split at h
      · cases h
      · rename_i hlen
        cases h
        exact .send hw (Decidable.not_not.mp hlen)
  | free leftover freem =>
      cases freem with
      | nil =>
          simp only [hw] at h
          cases h
          exact .freed hw
      -- One mbuf more to free, or the call is over.
      | cons m freem =>
          simp only [hw] at h
          split at h
          · cases h
          · cases h
            exact .free hw

/-! ### The rest of the packing loop -/

/-- What a pass of the loop leaves of the fuel. -/
theorem packFuel_pass {cfg : Config} {l l' : Wtfs} {ask : Option Nat} (hmtu : l.mtu ≠ 0)
    (h : packOnce cfg l = (l', ask)) :
    l'.mtu + l'.m.toList.length + 1 ≤ l.mtu + l.m.toList.length ∧ (ask ≠ none → l'.m = none) := by
  rw [packOnce] at h
  split at h
  · rename_i hm
    cases h
    simp [hm]
    omega
  · rename_i m hm
    split at h
    · cases h
      simp [hm]
      omega
    · split at h
      · cases h
        simp [hm]
      · cases h
        refine ⟨?_, fun _ => rfl⟩
        simp [hm]

/-- What is left of the fuel after an answer. -/
theorem packFuel_ask {cfg : Config} {l l' : Wtfs} {maxsize : Nat} (hmtu : l.mtu ≠ 0)
    (h : packOnce cfg l = (l', some maxsize)) (answers : List (Option Mbuf)) :
    packFuel (l'.take (answers.headD none)) answers.tail + 1 ≤ packFuel l answers := by
  obtain ⟨hle, hnone⟩ := packFuel_pass hmtu h
  have hm := hnone (by simp)
  rw [hm, Option.toList_none, List.length_nil] at hle
  cases answers with
  | nil =>
      simp only [packFuel, Wtfs.take, List.headD_nil, List.tail_nil, Option.toList_none,
        List.length_nil]
      omega
  | cons a answers =>
      have ha : a.toList.length ≤ 1 := by cases a <;> simp
      simp only [packFuel, Wtfs.take, List.headD_cons, List.tail_cons, List.length_cons]
      omega

/-- More fuel than `packFuel` changes nothing. -/
theorem packLoop_fuel (cfg : Config) :
    ∀ (fuel : Nat) (l : Wtfs) (answers : List (Option Mbuf)), packFuel l answers ≤ fuel →
      packLoop cfg (fuel + 1) l answers = packLoop cfg fuel l answers := by
  -- Induction on the fuel. A pass takes as much from `packFuel` as it takes from the fuel.
  intro fuel
  induction fuel with
  | zero =>
      intro l answers h
      have hmtu : l.mtu = 0 := by
        rw [packFuel] at h
        omega
      rw [packLoop, packLoop, if_pos hmtu]
  | succ fuel ih =>
      intro l answers h
      by_cases hmtu : l.mtu = 0
      · rw [packLoop, if_pos hmtu, packLoop, if_pos hmtu]
      · rw [packLoop, if_neg hmtu, packLoop, if_neg hmtu]
        cases honce : packOnce cfg l with
        | mk l' ask =>
            cases ask with
            | none =>
                refine ih l' answers ?_
                have hle := (packFuel_pass hmtu honce).1
                simp only [packFuel] at h ⊢
                omega
            | some maxsize =>
                refine ih _ _ ?_
                have hle := packFuel_ask hmtu honce answers
                omega

/-- More fuel than `packFuel` changes nothing, so that the fuel of the model is not seen in what
the loop comes to. -/
theorem packLoop_packFuel {cfg : Config} {fuel : Nat} {l : Wtfs} {answers : List (Option Mbuf)}
    (h : packFuel l answers ≤ fuel) :
    packLoop cfg fuel l answers = packLoop cfg (packFuel l answers) l answers := by
  induction fuel, h using Nat.le_induction with
  | base => rfl
  | succ fuel h ih => rw [packLoop_fuel cfg fuel l answers h, ih]

/-- What the packing loop comes to from `l`, with the answers that it will get. -/
def packed (cfg : Config) (l : Wtfs) (answers : List (Option Mbuf)) : Wtfs :=
  packLoop cfg (packFuel l answers) l answers

/-- The datagram is full, and the loop ends. -/
theorem packed_ended {cfg : Config} {l : Wtfs} (hmtu : l.mtu = 0) (answers : List (Option Mbuf)) :
    packed cfg l answers = l := by
  rw [packed]
  cases packFuel l answers with
  | zero => rw [packLoop]
  | succ n => rw [packLoop, if_pos hmtu]

/-- A pass that does not ask the queue, and the rest of the loop. -/
theorem packed_pass {cfg : Config} {l l' : Wtfs} (hmtu : l.mtu ≠ 0)
    (h : packOnce cfg l = (l', none)) (answers : List (Option Mbuf)) :
    packed cfg l answers = packed cfg l' answers := by
  have hle := (packFuel_pass hmtu h).1
  obtain ⟨n, hn⟩ : ∃ n, packFuel l answers = n + 1 := by
    refine ⟨packFuel l answers - 1, ?_⟩
    rw [packFuel]
    omega
  rw [packed, hn, packLoop, if_neg hmtu, h]
  refine packLoop_packFuel ?_
  rw [packFuel] at hn ⊢
  omega

/-- A pass that asks the queue, and the rest of the loop with the first of the answers. -/
theorem packed_ask {cfg : Config} {l l' : Wtfs} {maxsize : Nat} (hmtu : l.mtu ≠ 0)
    (h : packOnce cfg l = (l', some maxsize)) (a : Option Mbuf) (answers : List (Option Mbuf)) :
    packed cfg l (a :: answers) = packed cfg (l'.take a) answers := by
  have hle : packFuel (l'.take a) answers + 1 ≤ packFuel l (a :: answers) :=
    packFuel_ask hmtu h (a :: answers)
  obtain ⟨n, hn⟩ : ∃ n, packFuel l (a :: answers) = n + 1 :=
    ⟨packFuel l (a :: answers) - 1, by omega⟩
  rw [packed, hn, packLoop, if_neg hmtu, h]
  show packLoop cfg n (l'.take a) answers = _
  exact packLoop_packFuel (by omega)

/-! ### The relation -/

/-- `write_tfs_pkt` from the check of the length on. -/
def writeTfsFinish (cfg : Config) (seq offset : Nat) (l : Wtfs) (sent : Bool) : Res WriteOut :=
  let iov := .hdr (wtfsHdr seq offset) :: l.iov
  if iovlen iov ≠ cfg.tfsmtu then .error .errxIovlen
  else
    .ok {
      datagram := some (iovBytes iov)
      iov := iov
      seq := (seq + 1) % 2 ^ 32
      leftover := if sent then l.leftover else none
      freed := if sent then l.efreem else l.efreem ++ l.leftover.toList
      taken := l.taken }

/-- The loop and what comes after it, as two functions. The threads run the first one a pass at a
time. -/
theorem writeTfsData_eq (cfg : Config) (seq offset : Nat) (l : Wtfs) (answers : List (Option Mbuf))
    (sent : Bool) : writeTfsData cfg seq offset l answers sent =
      writeTfsFinish cfg seq offset (packed cfg l answers) sent := rfl

/-- How the call of `write_tfs_pkt` under way goes on, whatever the queue answers from here.
`answers` are the answers so far. -/
def Rest (cfg : Config) (s : Sender) (answers : List (Option Mbuf)) : TfsWriter → Prop
  | .call leftover | .free leftover _ => s.leftover = leftover
  | .pack offset l => ∀ more sent,
      writeTfsPkt cfg s.seq s.leftover (answers ++ more) sent =
        writeTfsFinish cfg s.seq offset (packed cfg l more) sent
  | .trypop offset l _ => ∀ a more sent,
      writeTfsPkt cfg s.seq s.leftover (answers ++ a :: more) sent =
        writeTfsFinish cfg s.seq offset (packed cfg (l.take a) more) sent
  | .send offset l => ∀ sent,
      writeTfsPkt cfg s.seq s.leftover answers sent = writeTfsFinish cfg s.seq offset l sent

/-- The thread has made the calls of the sender `s`. -/
structure Calls (cfg : Config) (o : ObservedIngress) (s : Sender) : Prop where
  ran : run (writeTfsPktsStep cfg) Sender.init o.calls = .ok s
  seq : s.seq = o.ingress.seq
  handed : s.handed = o.sent
  rest : Rest cfg s o.answers o.ingress.writer
  took : (s.taken ++ (o.ingress.writer.took ++ o.ingress.outq.queue)).Perm o.came
  answered : ∀ call ∈ o.calls, ∀ p, some p ∈ call.answers → p ∈ o.came
  answering : ∀ p, some p ∈ o.answers → p ∈ o.came

/-- No call has been made and no packet has come. -/
theorem calls_init (cfg : Config) : Calls cfg .init Sender.init where
  ran := rfl
  seq := rfl
  handed := rfl
  rest := rfl
  took := List.Perm.refl []
  answered := by simp [ObservedIngress.init]
  answering := by simp [ObservedIngress.init]

/-- A pass takes nothing from the queue itself. That is done by the `mqueue_trypop` after it. -/
theorem packOnce_taken {cfg : Config} {l l' : Wtfs} {ask : Option Nat}
    (h : packOnce cfg l = (l', ask)) : l'.taken = l.taken := by
  rw [packOnce] at h
  split at h
  · cases h
    rfl
  · split at h
    · cases h
      rfl
    · split at h <;>
      · cases h
        rfl

section Step

variable {cfg : Config} {o : ObservedIngress} {s : Sender} {t : Ingress}

/-- What is on the queue has come. -/
theorem Calls.queued (h : Calls cfg o s) {p : Mbuf} (hp : p ∈ o.ingress.outq.queue) :
    p ∈ o.came :=
  h.took.mem_iff.mp (List.mem_append_right _ (List.mem_append_right _ hp))

/-- A step of `read_intf_pkts`. -/
theorem Calls.read (h : Calls cfg o s) {result : Option (List UInt8)}
    (hstep : readIntfStep o.ingress result = .ok t) :
    Calls cfg { o.read with ingress := t } s := by
  cases intfReaderStep_of_step hstep with
  | quiet hr =>
      have hrec : o.read = o := by
        unfold ObservedIngress.read
        cases hreader : o.ingress.reader with
        | pushOut m => exact absurd hreader (hr m)
        | _ => rfl
      rw [hrec]
      exact ⟨h.ran, h.seq, h.handed, h.rest, h.took, h.answered, h.answering⟩
  | @pushOut m outq hr hpush =>
      have hrec : o.read = { o with came := o.came ++ [m] } := by rw [ObservedIngress.read, hr]
      have hqueue := (Queue.push_eq_some.mp hpush).1
      rw [hrec]
      refine ⟨h.ran, h.seq, h.handed, h.rest, ?_, ?_, ?_⟩
      · -- The packet is new on the queue, and among those that came.
        show (s.taken ++ (o.ingress.writer.took ++ outq.queue)).Perm (o.came ++ [m])
        rw [hqueue, ← List.append_assoc]
        have hmore := h.took.append_right [m]
        rw [← List.append_assoc] at hmore
        exact List.perm_middle.trans ((List.perm_append_singleton _ _).symm.trans hmore)
      · exact fun call hcall p hp => List.mem_append_left _ (h.answered call hcall p hp)
      · exact fun p hp => List.mem_append_left _ (h.answering p hp)

/-- The call goes on in the packing loop, without the queue. -/
theorem Calls.goto (h : Calls cfg o s) {w : TfsWriter} {freeq : Queue Mbuf} {sent : Bool}
    (hrec : o.write cfg sent = o) (hrest : Rest cfg s o.answers w)
    (htook : w.took = o.ingress.writer.took) :
    Calls cfg { o.write cfg sent with
      ingress := { o.ingress with freeq := freeq, writer := w } } s := by
  rw [hrec]
  refine ⟨h.ran, h.seq, h.handed, hrest, ?_, h.answered, h.answering⟩
  show (s.taken ++ (w.took ++ o.ingress.outq.queue)).Perm o.came
  rw [htook]
  exact h.took

/-- A call of `write_tfs_pkt` has ended. -/
theorem Calls.finish (h : Calls cfg o s) {answers : List (Option Mbuf)} {sent : Bool}
    {out : WriteOut} {w : TfsWriter} {handed : List (List UInt8 × Bool)}
    (hpkt : writeTfsPkt cfg s.seq s.leftover answers sent = .ok out)
    (hanswers : ∀ p, some p ∈ answers → p ∈ o.came)
    (hhanded : handed = o.sent ++ (out.datagram.map fun d => (d, sent)).toList)
    (hw : Rest cfg ⟨out.seq, out.leftover, s.calls ++ [(⟨answers, sent⟩, out)]⟩ o.answers w)
    (htook : out.taken ++ w.took = o.ingress.writer.took) :
    Calls cfg
      { o with
        calls := o.calls ++ [⟨answers, sent⟩]
        sent := handed
        ingress := { o.ingress with seq := out.seq, writer := w } }
      ⟨out.seq, out.leftover, s.calls ++ [(⟨answers, sent⟩, out)]⟩ := by
  refine ⟨run_concat.mpr ⟨s, h.ran, ?_⟩, rfl, ?_, hw, ?_, ?_, h.answering⟩
  · rw [writeTfsPktsStep, hpkt]
  · show Sender.handed _ = handed
    rw [hhanded, ← h.handed]
    simp only [Sender.handed, Sender.sends, List.filter_append, List.map_append]
    congr 1
    cases hd : out.datagram with
    | none => simp [hd]
    | some d => simp [hd]
  · show (((s.calls ++ [(_, out)]).map fun c : WriteCall × WriteOut => c.2.taken).flatten ++
      (w.took ++ o.ingress.outq.queue)).Perm o.came
    rw [List.map_append, List.flatten_append, List.map_singleton, List.flatten_singleton,
      List.append_assoc, ← List.append_assoc out.taken, htook]
    exact h.took
  · intro call hcall p hp
    rcases List.mem_append.mp hcall with hcall | hcall
    · exact h.answered call hcall p hp
    · rw [List.mem_singleton.mp hcall] at hp
      exact hanswers p hp

/-- The call begins with the packet that was cut in the call before. -/
theorem Calls.leftover (h : Calls cfg o s) {m : Mbuf} {sent : Bool}
    (hw : o.ingress.writer = .call (some m)) :
    Calls cfg { o.write cfg sent with
      ingress := { o.ingress with writer := .pack (m.len % 2 ^ 16) (wtfsEnter cfg m []) } } s := by
  have hrec : o.write cfg sent = { o with answers := [] } := by
    rw [ObservedIngress.write, hw]
  have hrest := h.rest
  have htook := h.took
  rw [hw] at hrest htook
  rw [hrec]
  refine ⟨h.ran, h.seq, h.handed, ?_, htook, h.answered, by simp⟩
  intro more sent
  have hleft : s.leftover = some m := hrest
  rw [hleft, List.nil_append, writeTfsPkt, writeTfsData_eq]

/-- The call begins with a packet from the queue. -/
theorem Calls.first (h : Calls cfg o s) {m : Mbuf} {outq : Queue Mbuf} {sent : Bool}
    (hw : o.ingress.writer = .call none)
    (hpop : mqueueTrypop Mbuf.len o.ingress.outq 0 = (some m, outq)) :
    Calls cfg { o.write cfg sent with
      ingress := { o.ingress with outq := outq, writer := .pack 0 (wtfsEnter cfg m [m]) } } s := by
  have hrec : o.write cfg sent = { o with answers := [some m] } := by
    rw [ObservedIngress.write, hw]
    dsimp only
    rw [hpop]
  have hqueue := mqueueTrypop_queue hpop
  have hmem : m ∈ o.ingress.outq.queue := by
    rw [hqueue]
    exact List.mem_cons_self
  have hrest := h.rest
  have htook := h.took
  rw [hw, hqueue] at htook
  rw [hw] at hrest
  rw [hrec]
  refine ⟨h.ran, h.seq, h.handed, ?_, htook, h.answered, ?_⟩
  · intro more sent
    have hleft : s.leftover = none := hrest
    rw [hleft]
    rfl
  · intro p hp
    rw [Option.some.inj (List.mem_singleton.mp hp)]
    exact h.queued hmem

/-- The call finds nothing to send. In single-only mode it ends there, and else it sends an empty
datagram. -/
theorem Calls.empty (h : Calls cfg o s) {outq : Queue Mbuf} {sent : Bool}
    (hw : o.ingress.writer = .call none)
    (hpop : mqueueTrypop Mbuf.len o.ingress.outq 0 = (none, outq)) :
    ∃ s', Calls cfg { o.write cfg sent with
      ingress := { o.ingress with
        writer := .call none
        seq := if cfg.oneonly then o.ingress.seq
          else (writeEmptyTfsPkt o.ingress.seq cfg.tfsmtu).2 } } s' := by
  have hrec : o.write cfg sent = { o with
      calls := o.calls ++ [⟨[none], sent⟩]
      sent :=
        if cfg.oneonly then o.sent
        else o.sent ++ [((writeEmptyTfsPkt o.ingress.seq cfg.tfsmtu).1, sent)] } := by
    rw [ObservedIngress.write, hw]
    dsimp only
    rw [hpop]
  have hrest := h.rest
  rw [hw] at hrest
  have hleft : s.leftover = none := hrest
  rw [hrec]
  -- In single-only mode nothing is sent. Otherwise an empty datagram goes out, and takes a number.
  by_cases hone : cfg.oneonly = true
  · have hpkt : writeTfsPkt cfg s.seq s.leftover [none] sent =
        .ok ⟨none, [], s.seq, none, [], []⟩ := by
      rw [hleft, writeTfsPkt]
      simp only [List.headD_cons, hone, if_true]
    have hcall := h.finish hpkt (by simp) (w := .call none) (List.append_nil _).symm rfl
      (by rw [hw]; rfl)
    rw [h.seq] at hcall
    simp only [hone, if_true]
    exact ⟨_, hcall⟩
  · have hpkt : writeTfsPkt cfg s.seq s.leftover [none] sent =
        .ok ⟨some (writeEmptyTfsPkt s.seq cfg.tfsmtu).1, [],
          (writeEmptyTfsPkt s.seq cfg.tfsmtu).2, none, [], []⟩ := by
      rw [hleft, writeTfsPkt]
      simp only [List.headD_cons, hone]
      rfl
    have hcall := h.finish hpkt (by simp) (w := .call none) rfl rfl (by rw [hw]; rfl)
    rw [h.seq] at hcall
    simp only [hone]
    exact ⟨_, hcall⟩

/-- The packing loop has ended. -/
theorem Calls.ended (h : Calls cfg o s) {offset : Nat} {l : Wtfs} {sent : Bool}
    (hw : o.ingress.writer = .pack offset l) (hmtu : l.mtu = 0) :
    Calls cfg { o.write cfg sent with
      ingress := { o.ingress with writer := .send offset l } } s := by
  have hrest := h.rest
  rw [hw] at hrest
  refine h.goto (by rw [ObservedIngress.write, hw]) ?_ (by rw [hw]; rfl)
  intro sent
  have hmore := hrest [] sent
  rwa [List.append_nil, packed_ended hmtu] at hmore

/-- A pass of the packing loop that asks for no packet. -/
theorem Calls.pass (h : Calls cfg o s) {offset : Nat} {l l' : Wtfs} {sent : Bool}
    (hw : o.ingress.writer = .pack offset l) (hmtu : l.mtu ≠ 0)
    (honce : packOnce cfg l = (l', none)) :
    Calls cfg { o.write cfg sent with
      ingress := { o.ingress with writer := .pack offset l' } } s := by
  have hrest := h.rest
  rw [hw] at hrest
  refine h.goto (by rw [ObservedIngress.write, hw]) ?_ ?_
  · intro more sent
    rw [← packed_pass hmtu honce]
    exact hrest more sent
  · rw [hw]
    exact packOnce_taken honce

/-- A pass that asks for one. The queue has not answered yet, so the rest is for any answer. -/
theorem Calls.ask (h : Calls cfg o s) {offset maxsize : Nat} {l l' : Wtfs} {sent : Bool}
    (hw : o.ingress.writer = .pack offset l) (hmtu : l.mtu ≠ 0)
    (honce : packOnce cfg l = (l', some maxsize)) :
    Calls cfg { o.write cfg sent with
      ingress := { o.ingress with writer := .trypop offset l' maxsize } } s := by
  have hrest := h.rest
  rw [hw] at hrest
  refine h.goto (by rw [ObservedIngress.write, hw]) ?_ ?_
  · intro a more sent
    rw [← packed_ask hmtu honce]
    exact hrest (a :: more) sent
  · rw [hw]
    exact packOnce_taken honce

/-- The queue answers, and its answer is on record from here on. -/
theorem Calls.trypop (h : Calls cfg o s) {offset maxsize : Nat} {l : Wtfs} {m : Option Mbuf}
    {outq : Queue Mbuf} {sent : Bool} (hw : o.ingress.writer = .trypop offset l maxsize)
    (hpop : mqueueTrypop Mbuf.len o.ingress.outq maxsize = (m, outq)) :
    Calls cfg { o.write cfg sent with
      ingress := { o.ingress with outq := outq, writer := .pack offset (l.take m) } } s := by
  have hrec : o.write cfg sent = { o with answers := o.answers ++ [m] } := by
    rw [ObservedIngress.write, hw]
    dsimp only
    rw [hpop]
  have hqueue := mqueueTrypop_queue hpop
  have hrest := h.rest
  have htook := h.took
  rw [hw, hqueue] at htook
  rw [hw] at hrest
  rw [hrec]
  refine ⟨h.ran, h.seq, h.handed, ?_, ?_, h.answered, ?_⟩
  · intro more sent
    rw [List.append_assoc]
    exact hrest m more sent
  · show (s.taken ++ (l.taken ++ m.toList ++ outq.queue)).Perm o.came
    rw [List.append_assoc]
    exact htook
  · intro p hp
    rcases List.mem_append.mp hp with hp | hp
    · exact h.answering p hp
    · refine h.queued ?_
      rw [hqueue, ← List.mem_singleton.mp hp]
      exact List.mem_cons_self

/-- The datagram goes to `sendmsg`, and the call of the sender ends. What is still to be freed is
the business of the thread alone. -/
theorem Calls.send (h : Calls cfg o s) {offset : Nat} {l : Wtfs} {sent : Bool}
    (hw : o.ingress.writer = .send offset l)
    (hlen : iovlen (.hdr (wtfsHdr o.ingress.seq offset) :: l.iov) = cfg.tfsmtu) :
    ∃ s', Calls cfg { o.write cfg sent with
      ingress := { o.ingress with
        seq := (o.ingress.seq + 1) % 2 ^ 32
        writer :=
          if sent then .free l.leftover l.efreem
          else .free none (l.efreem ++ l.leftover.toList) } } s' := by
  have hrec : o.write cfg sent = { o with
      calls := o.calls ++ [⟨o.answers, sent⟩]
      sent := o.sent ++
        [(iovBytes (.hdr (wtfsHdr o.ingress.seq offset) :: l.iov), sent)] } := by
    rw [ObservedIngress.write, hw]
  have hrest := h.rest
  rw [hw] at hrest
  have hpkt : writeTfsPkt cfg s.seq s.leftover o.answers sent = .ok {
      datagram := some (iovBytes (.hdr (wtfsHdr o.ingress.seq offset) :: l.iov))
      iov := .hdr (wtfsHdr o.ingress.seq offset) :: l.iov
      seq := (o.ingress.seq + 1) % 2 ^ 32
      leftover := if sent then l.leftover else none
      freed := if sent then l.efreem else l.efreem ++ l.leftover.toList
      taken := l.taken } := by
    rw [hrest sent, writeTfsFinish, h.seq]
    exact if_neg (Decidable.not_not.mpr hlen)
  rw [hrec]
  refine ⟨_, h.finish hpkt h.answering rfl ?_ ?_⟩
  · -- The packet that was cut stays, or it is freed with the others when `sendmsg` fails.
    cases sent <;> rfl
  · rw [hw]
    cases sent <;> exact List.append_nil _

/-- A step of `write_tfs_pkts`, by where the thread is. -/
theorem Calls.write (h : Calls cfg o s) {sent : Bool}
    (hstep : writeTfsStep cfg o.ingress sent = .ok t) :
    ∃ s', Calls cfg { o.write cfg sent with ingress := t } s' := by
  have hrest := h.rest
  cases tfsWriterStep_of_step hstep with
  | leftover hw => exact ⟨s, h.leftover hw⟩
  | first hw hpop => exact ⟨s, h.first hw hpop⟩
  | empty hw hpop => exact h.empty hw hpop
  | ended hw hmtu => exact ⟨s, h.ended hw hmtu⟩
  | pass hw hmtu honce => exact ⟨s, h.pass hw hmtu honce⟩
  | ask hw hmtu honce => exact ⟨s, h.ask hw hmtu honce⟩
  | trypop hw hpop => exact ⟨s, h.trypop hw hpop⟩
  | send hw hlen => exact h.send hw hlen
  | freed hw | free hw =>
      -- The sender has no part in the freeing.
      rw [hw] at hrest
      exact ⟨s, h.goto (by rw [ObservedIngress.write, hw]) hrest (by rw [hw]; rfl)⟩

/-- Each step of either thread is part of the calls of some sender: the reader brings packets, and
the writer goes on in its call or begins the next one. -/
theorem Calls.step (h : Calls cfg o s) {p : ObservedIngress} {e : IngressEvent}
    (hstep : observedIngressStep cfg o e = .ok p) : ∃ s', Calls cfg p s' := by
  rw [observedIngressStep] at hstep
  split at hstep
  · cases hstep
  · rename_i t ht
    cases e with
    | reader result =>
        cases hstep
        exact ⟨s, h.read ht⟩
    | writer sent =>
        cases hstep
        exact h.write ht

/-- The two threads have made the calls of some sender, in every state that they reach. -/
theorem calls_of_reachable (h : Reachable (observedIngressStep cfg) .init o) :
    ∃ s, Calls cfg o s := by
  have hkeep : ∀ p e q, (∃ s, Calls cfg p s) → observedIngressStep cfg p e = .ok q →
      ∃ s, Calls cfg q s := by
    rintro p e q ⟨s, hs⟩ hstep
    exact hs.step hstep
  exact h.induct ⟨_, calls_init cfg⟩ hkeep

end Step

/-- The record of the datagrams grows. -/
theorem write_sent (cfg : Config) (o : ObservedIngress) (sent : Bool) :
    o.sent <+: (o.write cfg sent).sent := by
  unfold ObservedIngress.write
  cases o.ingress.writer with
  | call leftover =>
      cases leftover with
      | some m => exact List.prefix_rfl
      | none =>
          dsimp only
          split
          · exact List.prefix_rfl
          · dsimp only
            split
            · exact List.prefix_rfl
            · exact List.prefix_append _ _
  | send offset l => exact List.prefix_append _ _
  | _ => exact List.prefix_rfl

/-- `read_intf_pkts` hands nothing to the socket. -/
theorem read_sent (o : ObservedIngress) : o.read.sent = o.sent := by
  unfold ObservedIngress.read
  cases o.ingress.reader <;> rfl

/-- The datagrams that were handed to `sendmsg` stay on the record, and more come after them. -/
theorem observedIngressStep_sent {cfg : Config} {o p : ObservedIngress} {e : IngressEvent}
    (h : observedIngressStep cfg o e = .ok p) : o.sent <+: p.sent := by
  rw [observedIngressStep] at h
  split at h
  · cases h
  · cases e with
    | reader result =>
        cases h
        show o.sent <+: o.read.sent
        exact read_sent o ▸ List.prefix_rfl
    | writer sent =>
        cases h
        exact write_sent cfg o sent

/-- Whatever the order of the steps, the two threads of the ingress make calls of `write_tfs_pkt`:
run one after the other, with the answers that the queue gave, they hand the same datagrams to the
socket, with the same sequence numbers, and between two calls they leave the same leftover. Each
packet that `read_intf_pkts` has read was taken by exactly one of the calls, the one under way
included, or it is still on the queue. -/
theorem ingress_refines (cfg : Config) (o : ObservedIngress)
    (h : Reachable (observedIngressStep cfg) .init o) :
    ∃ s, run (writeTfsPktsStep cfg) Sender.init o.calls = .ok s ∧
      s.seq = o.ingress.seq ∧
      s.sends.map (fun c => (c.2.datagram.getD [], c.1.sent)) = o.sent ∧
      (∀ leftover, o.ingress.writer = .call leftover → s.leftover = leftover) ∧
      (s.taken ++ (o.ingress.writer.took ++ o.ingress.outq.queue)).Perm o.came := by
  obtain ⟨s, hs⟩ := calls_of_reachable h
  refine ⟨s, hs.ran, hs.seq, hs.handed, ?_, hs.took⟩
  intro leftover hw
  have hrest := hs.rest
  rwa [hw] at hrest

/-- A packet is read and sent. Two more are read, and the call under way has taken the later one. -/
def readAndSend : List IngressEvent :=
  let read (bytes : List UInt8) : List IngressEvent :=
    [.reader none, .reader (some bytes), .reader none]
  let turn : IngressEvent := .writer true
  read [0x45, 0, 0, 5, 1] ++ [turn, turn] ++ read [0x45, 0, 0, 5, 2] ++ [turn, turn, turn, turn] ++
    read [0x45, 0, 0, 5, 3] ++ [turn, turn, turn]

/-- Applied where one datagram has been sent, a second call has taken a packet, and a third packet
waits on the queue. -/
theorem ingress_refines_three : ∃ o s,
    run (observedIngressStep ⟨19, false, false⟩) .init readAndSend = .ok o ∧
      o.sent = [([0, 0, 0, 1, 0, 0, 0, 0, 0x45, 0, 0, 5, 1, 0, 0, 0, 0, 0, 0], true)] ∧
      o.ingress.writer.took.map Mbuf.data = [[0x45, 0, 0, 5, 3]] ∧
      run (writeTfsPktsStep ⟨19, false, false⟩) Sender.init o.calls = .ok s ∧
      s.sends.map (fun c => (c.2.datagram.getD [], c.1.sent)) = o.sent ∧
      (s.taken ++ (o.ingress.writer.took ++ o.ingress.outq.queue)).Perm o.came := by
  have hends : (run (observedIngressStep ⟨19, false, false⟩) .init readAndSend).map
      (fun o => (o.sent, o.ingress.writer.took.map Mbuf.data)) =
        .ok ([([0, 0, 0, 1, 0, 0, 0, 0, 0x45, 0, 0, 5, 1, 0, 0, 0, 0, 0, 0], true)],
          [[0x45, 0, 0, 5, 3]]) := by decide +kernel
  cases hrun : run (observedIngressStep ⟨19, false, false⟩) .init readAndSend with
  | error e =>
      rw [hrun] at hends
      cases hends
  | ok o =>
      rw [hrun] at hends
      obtain ⟨hsent, htook⟩ := Prod.mk.inj (Except.ok.inj hends)
      obtain ⟨s, hok, -, hhanded, -, hperm⟩ := ingress_refines ⟨19, false, false⟩ o ⟨_, hrun⟩
      exact ⟨o, s, rfl, hsent, htook, hok, hhanded, hperm⟩

end Proofs

end Iptfs
