import Iptfs.Lib.Slices
import Iptfs.Proofs.Python.EgressSteps

/-!
# `Iptfs.Proofs.Python.ZeroCopy`: the memoryviews stay readable

`read_tfs_packets` fills one buffer after the other, and the packets on their way to the interface
are slices of buffers that it has filled before. `Loaded` says that the slices can be read back, in
the sense of `Iptfs.Lib.Slices`. The buffer to be filled comes from `freeq`, or its last reference
was that of the reader: by `Conserves` no `MIOVBuf` has an entry for it.

`slices_intact` is the result: `os.writev` writes what `add_to_inner_packet` put together.
-/

set_option autoImplicit false

namespace Iptfs

/-- The slice that an entry of an `iov` is. -/
def Iovec.slice (v : Iovec) : Lib.Slice Nat UInt8 := ⟨v.mbuf, v.base, v.bytes⟩

end Iptfs

namespace Iptfs.Py

open Iptfs.Lib

/-- The slices in the `MIOVBuf` number `k`. -/
def Egress.slices (s : Egress) (k : Nat) : List (Slice Nat UInt8) :=
  (s.miov k).iov.map Iovec.slice

/-- The buffer that `recvfrom_into` fills next. -/
def TfsReader.target : TfsReader → Option Nat
  | .recv b _ => some b
  | _ => none

/-- The datagram in hand. -/
def TfsReader.datagram : TfsReader → Option Tbuf
  | .record tmbuf _ _ | .reset tmbuf _ _ | .resetPush tmbuf _ _ _ | .inner tmbuf _ _
  | .push tmbuf _ _ => some tmbuf
  | _ => none

/-- Its buffer, and its bytes. -/
def TfsReader.source (r : TfsReader) : Option (Nat × List UInt8) :=
  r.datagram.map fun tmbuf => (tmbuf.id, tmbuf.data)

namespace Proofs

open Iptfs.Proofs (Tbuf.Same)

/-- The memory holds what the entries were made from. -/
def Loaded (s : Egress) (mem : Nat → List UInt8) : Prop :=
  Readable s.slices mem s.reader.target s.reader.source

/-- No `MIOVBuf` has an entry yet, whatever is in the memory. -/
theorem loaded_init (pps : ℚ) (mem : Nat → List UInt8) : Loaded (.init pps) mem := Readable.nil mem

section Step

variable {s t : Egress} {mem : Nat → List UInt8}

/-- The header is passed over in the same datagram. -/
theorem enterInner_same {tmbuf tmbuf' : Tbuf} {new : Bool} {offset : Nat}
    (h : enterInner tmbuf new = .ok (some (tmbuf', offset))) : Tbuf.Same tmbuf tmbuf' := by
  unfold enterInner at h
  split at h
  · cases h
  · split at h
    · split at h
      · cases h
      · split at h
        · cases h
        · cases h
          exact ⟨rfl, rfl⟩
    · cases h
      exact ⟨rfl, rfl⟩

/-- The same datagram. -/
theorem source_same {r r' : TfsReader} {tmbuf tmbuf' : Tbuf} (hr : r.datagram = some tmbuf)
    (hr' : r'.datagram = some tmbuf') (hsame : Tbuf.Same tmbuf tmbuf') : r'.source = r.source := by
  rw [TfsReader.source, TfsReader.source, hr, hr', Option.map_some, Option.map_some, hsame.1,
    hsame.2]

/-- A step that adds no entry, and that turns to no other buffer or datagram. -/
theorem Loaded.keep (h : Loaded s mem) (hsub : ∀ k, ∀ v ∈ (t.miov k).iov, v ∈ (s.miov k).iov)
    (htarget : t.reader.target = none ∨ t.reader.target = s.reader.target)
    (hsource : t.reader.source = none ∨ t.reader.source = s.reader.source) : Loaded t mem := by
  refine Readable.keep h (fun k => List.map_subset _ (hsub k)) ?_ ?_
  · intro b hb
    rcases htarget with hnone | hold
    · rw [hnone] at hb
      cases hb
    · rw [hold] at hb
      exact .inl hb
  · intro d hd
    rcases hsource with hnone | hold
    · rw [hnone] at hd
      cases hd
    · rwa [hold] at hd

/-- A `MIOVBuf` is written with some of its entries. -/
theorem mem_setMiov {k : Nat} {m : MIOVBuf} (hm : ∀ v ∈ m.iov, v ∈ (s.miov k).iov) (j : Nat)
    (v : Iovec) (hv : v ∈ (Function.update s.miov k m j).iov) : v ∈ (s.miov j).iov := by
  rcases eq_or_ne j k with rfl | hne
  · rw [Function.update_self] at hv
    exact hm v hv
  · rwa [Function.update_of_ne hne] at hv

/-- The first entry of a `MIOVBuf` is dropped. -/
theorem mem_cutEntry {k : Nat} {v : Iovec} {rest : List Iovec}
    (hiov : (s.miov k).iov = v :: rest) (j : Nat) (w : Iovec)
    (hw : w ∈ ((cutEntry s k v.mbuf rest).miov j).iov) : w ∈ (s.miov j).iov := by
  refine mem_setMiov (m := { s.miov k with iov := rest }) ?_ j w hw
  intro u hu
  rw [hiov]
  exact List.mem_cons_of_mem _ hu

/-- An entry is added for the datagram in hand. -/
theorem Loaded.addmbuf {tmbuf rest : Tbuf} {k start len : Nat} {left : Option Nat} {r : TfsReader}
    (h : Loaded s mem) (hold : s.reader.datagram = some tmbuf) (htarget : r.target = none)
    (hdatagram : r.datagram = none ∨ r.datagram = some rest) (hsame : Tbuf.Same tmbuf rest) :
    Loaded { addmbufStep s k tmbuf start len left with reader := r } mem := by
  have hsource : s.reader.source = some (tmbuf.id, tmbuf.data) := by
    rw [TfsReader.source, hold, Option.map_some]
  have hr : Readable s.slices mem s.reader.target (some (tmbuf.id, tmbuf.data)) := hsource ▸ h
  have hnext : ∀ d ∈ r.source, d = (tmbuf.id, tmbuf.data) := by
    intro d hd
    rcases hdatagram with hnone | hrest
    · rw [TfsReader.source, hnone] at hd
      cases hd
    · rw [TfsReader.source, hrest, Option.map_some, hsame.1, hsame.2] at hd
      exact (Option.some.inj hd).symm
  have hslices : ({ addmbufStep s k tmbuf start len left with reader := r } : Egress).slices =
      Function.update s.slices k
        (s.slices k ++ [⟨tmbuf.id, start, (tmbuf.data.drop start).take len⟩]) := by
    funext j
    show (Function.update s.miov k _ j).iov.map Iovec.slice = _
    rcases eq_or_ne j k with rfl | hne
    · rw [Function.update_self, Function.update_self]
      exact List.map_append
    · rw [Function.update_of_ne hne, Function.update_of_ne hne]
      rfl
  rw [Loaded, hslices]
  show Readable _ mem r.target r.source
  rw [htarget]
  exact hr.add k start len hnext

/-- A datagram is received into the buffer `b`. -/
theorem Loaded.receive {target : ℚ} {b : Nat} {m : Option Nat} {bytes : List UInt8} {limited : Bool}
    (h : Loaded s mem) (hr : s.reader = .recv b m)
    (hstep : RecvStep target s b m bytes limited t) : Loaded t (recvMem mem b bytes) := by
  have hs : Readable s.slices mem (some b) s.reader.source := by
    rw [Loaded, hr] at h
    rw [hr]
    exact h
  -- What goes on to be in hand is this datagram.
  have hfill : ∀ r : TfsReader, r.target = none →
      (∀ tmbuf ∈ r.datagram, Tbuf.Same (Tbuf.fresh b (recvBytes bytes)) tmbuf) →
      Readable s.slices (recvMem mem b bytes) r.target r.source := by
    intro r htarget hdatagram
    rw [htarget]
    refine hs.fill (recvBytes bytes) _ ?_
    intro d hd
    obtain ⟨tmbuf, htmbuf, rfl⟩ := Option.map_eq_some_iff.mp hd
    obtain ⟨hid, hdata⟩ := hdatagram tmbuf htmbuf
    rw [hid, hdata]
    rfl
  cases hstep with
  | ack _ _ => exact hfill _ rfl (by simp [TfsReader.datagram])
  | drop _ _ | data _ =>
      refine hfill _ rfl ?_
      intro tmbuf htmbuf
      cases htmbuf
      exact ⟨rfl, rfl⟩

/-- After an access the datagram is still in hand, or the next one is due. -/
theorem Accessed.datagram {tmbuf : Tbuf} {m : Option Nat} {access : Access} {r : TfsReader}
    (h : Accessed tmbuf m access r) :
    r.target = none ∧ (r.datagram = none ∨ r.datagram = some tmbuf) := by
  cases h with
  | top => exact ⟨rfl, .inl rfl⟩
  | record _ => exact ⟨rfl, .inr rfl⟩
  | reset _ _ => exact ⟨rfl, .inr rfl⟩

/-- An access to the attributes of the outq leaves the entries alone. -/
theorem Loaded.record {tmbuf : Tbuf} {m : Option Nat} {access : Access} (h : Loaded s mem)
    (hr : s.reader = .record tmbuf m access) (hstep : RecordStep s tmbuf m access t) :
    Loaded t mem := by
  have hdatagram : s.reader.datagram = some tmbuf := congrArg TfsReader.datagram hr
  have hgoes : ∀ {r : TfsReader} {ack : AckRecord}, Accessed tmbuf m access r →
      Loaded { s with ack := ack, reader := r } mem := by
    intro r ack haccessed
    obtain ⟨htarget, hnone | hsome⟩ := haccessed.datagram
    · refine h.keep (fun _ _ hv => hv) (.inl htarget) (.inl ?_)
      show r.source = none
      rw [TfsReader.source, hnone]
      rfl
    · exact h.keep (fun _ _ hv => hv) (.inl htarget)
        (.inr (source_same hdatagram hsome ⟨rfl, rfl⟩))
  cases hstep with
  | test _ | count => exact hgoes (.record rfl)
  | start haccess =>
      refine hgoes (accessed_pastStart s.ack tmbuf m ?_)
      rcases haccess with rfl | rfl <;> rfl
  | @counted dropcnt seq => exact hgoes (accessed_pastCount tmbuf m (.counted dropcnt seq))
  | advance henter =>
      exact h.keep (fun _ _ hv => hv) (.inl rfl)
        (.inr (source_same hdatagram rfl (enterInner_same henter)))

/-- A step of `read_tfs_packets`. -/
theorem Loaded.read {target : ℚ} {o : Observed} {bytes : List UInt8} {limited : Bool}
    (h : Loaded o.egress o.mem) (hcons : Conserves o.egress)
    (hstep : readTfsStep target o.egress bytes limited = .ok t) :
    Loaded t (o.read bytes limited).mem := by
  have hmem : (∀ b m, o.egress.reader ≠ .recv b m) → (o.read bytes limited).mem = o.mem := by
    intro hno
    unfold Observed.read
    cases hr : o.egress.reader with
    | recv b m => exact absurd hr (hno b m)
    | inner tmbuf offset m =>
        cases m with
        | none =>
            dsimp only
            split <;> rfl
        | some k => rfl
    | _ => rfl
  have hin : ∀ {r : TfsReader}, o.egress.reader = r → o.egress.reader.datagram = r.datagram :=
    congrArg TfsReader.datagram
  cases readerStep_of_step hcons.long hstep with
  | start hr _ | startRef hr | topPush hr _ | pop hr _ | keep hr _ | pushDone hr _ =>
      rw [hmem (by simp [hr])]
      exact h.keep (fun _ _ hv => hv) (.inl rfl) (.inl rfl)
  | top hr hnext =>
      rw [hmem (by simp [hr])]
      rcases hnext with rfl | rfl
      · exact h.keep (fun _ _ hv => hv) (.inl rfl) (.inl rfl)
      · exact h.keep (fun _ _ hv => hv) (.inl rfl) (.inl rfl)
  | @ref b m hr =>
      rw [hmem (by simp [hr])]
      -- The buffer is in the hands of the reader, so no `MIOVBuf` has an entry for it.
      have hhands : b ∈ o.egress.reader.holding.hands := by
        rw [hr]
        exact List.mem_singleton.mpr rfl
      refine Readable.keep h (fun _ _ hv => hv) ?_ (by simp [TfsReader.source, TfsReader.datagram])
      intro c hc
      cases hc
      refine .inr ?_
      rintro k v hv rfl
      obtain ⟨w, hw, rfl⟩ := List.mem_map.mp hv
      exact hcons.balanced.notMem_cells hhands k (List.mem_map_of_mem hw)
  | @recv b m _ hr hrecv =>
      have hrec : (o.read bytes limited).mem = recvMem o.mem b bytes := by
        rw [Observed.read, hr]
      rw [hrec]
      exact h.receive hr hrecv
  | record hr hrecord =>
      rw [hmem (by simp [hr])]
      exact h.record hr hrecord
  | resetTurn hr hiov hnext =>
      rw [hmem (by simp [hr])]
      rcases hnext with rfl | rfl
      · exact h.keep (mem_cutEntry hiov) (.inl rfl) (.inr (source_same (hin hr) rfl ⟨rfl, rfl⟩))
      · exact h.keep (mem_cutEntry hiov) (.inl rfl) (.inr (source_same (hin hr) rfl ⟨rfl, rfl⟩))
  | resetEnded hr hiov henter =>
      rw [hmem (by simp [hr])]
      exact h.keep (mem_setMiov (by simp [MIOVBuf.reset])) (.inl rfl)
        (.inr (source_same (hin hr) rfl (enterInner_same henter)))
  | resetPush hr _ | popIov hr _ =>
      rw [hmem (by simp [hr])]
      exact h.keep (fun _ _ hv => hv) (.inl rfl) (.inr (source_same (hin hr) rfl ⟨rfl, rfl⟩))
  | part hr hpass =>
      rw [hmem (by simp [hr])]
      exact h.addmbuf (hin hr) rfl (.inl rfl) (innerPass_same hpass)
  | full hr hpass =>
      rw [hmem (by simp [hr])]
      exact h.addmbuf (hin hr) rfl (.inr rfl) (innerPass_same hpass)
  | pushEnter hr _ henter =>
      rw [hmem (by simp [hr])]
      exact h.keep (fun _ _ hv => hv) (.inl rfl)
        (.inr (source_same (hin hr) rfl (enterInner_same henter)))

/-- A step of `write_intf_packets` drops entries. -/
theorem Loaded.write (h : Loaded s mem) (hstep : writeIntfStep s = .ok t) : Loaded t mem := by
  cases writerStep_of_step hstep with
  | pop _ _ | write _ | resetPush _ _ | push _ _ =>
      exact h.keep (fun _ _ hv => hv) (.inr rfl) (.inr rfl)
  | resetTurn _ hiov _ => exact h.keep (mem_cutEntry hiov) (.inr rfl) (.inr rfl)
  | resetEnded _ _ =>
      exact h.keep (mem_setMiov (by simp [MIOVBuf.reset])) (.inr rfl) (.inr rfl)

end Step

/-! ### Runs -/

/-- What the threads keep: the buffers are where they should be, and the slices can be read. -/
structure Intact (o : Observed) : Prop where
  conserves : Conserves o.egress
  loaded : Loaded o.egress o.mem

/-- The initial state of the egress, with any memory. -/
theorem intact_init (pps : ℚ) (mem : Nat → List UInt8) : Intact (.init pps mem) where
  conserves := conserves_init pps
  loaded := loaded_init pps mem

/-- A step of the egress, with the thread that takes it. -/
theorem observedStep_cases {target : ℚ} {o p : Observed} {e : EgressEvent}
    (h : observedStep target o e = .ok p) :
    egressStep target o.egress e = .ok p.egress ∧
      ((∃ bytes limited, e = .reader bytes limited ∧
          p = { o.read bytes limited with egress := p.egress }) ∨
        e = .writer ∧ p = { o.write with egress := p.egress } ∨
        ∃ ns, e = .ackInfos ns ∧ p = { o.report ns with egress := p.egress }) := by
  rw [observedStep] at h
  split at h
  · cases h
  · rename_i t ht
    cases e with
    | reader bytes limited =>
        cases h
        exact ⟨ht, .inl ⟨bytes, limited, rfl, rfl⟩⟩
    | writer =>
        cases h
        exact ⟨ht, .inr (.inl ⟨rfl, rfl⟩)⟩
    | ackInfos ns =>
        cases h
        exact ⟨ht, .inr (.inr ⟨ns, rfl, rfl⟩)⟩

/-- `writev` changes no memory of the buffers. -/
theorem write_mem (o : Observed) : o.write.mem = o.mem := by
  unfold Observed.write
  cases o.egress.writer <;> rfl

/-- What `send_ack_infos` does is recorded in `acks`. -/
theorem report_eq (o : Observed) (ns : Nat) : ∃ acks, o.report ns = { o with acks := acks } := by
  unfold Observed.report
  cases o.egress.acker <;> exact ⟨_, rfl⟩

/-- A step of `send_ack_infos`, with all that it changes. -/
theorem ackInfos_eq {target : ℚ} {o p : Observed} {ns : Nat}
    (hegress : egressStep target o.egress (.ackInfos ns) = .ok p.egress)
    (hp : p = { o.report ns with egress := p.egress }) : ∃ ack acker acks,
      p = { o with egress := { o.egress with ack := ack, acker := acker }, acks := acks } ∧
        ack.lastseq = o.egress.ack.lastseq := by
  obtain ⟨ack, acker, heq, hlast⟩ := sendAckInfosStep_eq o.egress
  obtain ⟨acks, hacks⟩ := report_eq o ns
  have hegress' : p.egress = { o.egress with ack := ack, acker := acker } :=
    (Except.ok.inj hegress).symm.trans heq
  refine ⟨ack, acker, acks, ?_, hlast⟩
  rw [hp, hacks, hegress']

/-- Each step of any of the three threads keeps both. `recvfrom_into` writes only to a buffer that
no entry points into, and the other two threads write to none. -/
theorem Intact.step {target : ℚ} {o p : Observed} {e : EgressEvent} (h : Intact o)
    (hstep : observedStep target o e = .ok p) : Intact p := by
  obtain ⟨hegress, hcase⟩ := observedStep_cases hstep
  refine ⟨egressStep_conserves _ _ _ h.conserves hegress, ?_⟩
  rcases hcase with ⟨bytes, limited, rfl, hp⟩ | ⟨rfl, hp⟩ | ⟨ns, rfl, hp⟩
  · rw [hp]
    exact h.loaded.read h.conserves hegress
  · rw [hp]
    show Loaded p.egress o.write.mem
    rw [write_mem]
    exact h.loaded.write hegress
  · obtain ⟨ack, acker, acks, rfl, -⟩ := ackInfos_eq hegress hp
    exact h.loaded.keep (fun _ _ hv => hv) (.inr rfl) (.inr rfl)

/-- The slices can be read in every state that the threads reach. -/
theorem intact_of_reachable {target pps : ℚ} {mem : Nat → List UInt8} {o : Observed}
    (h : Reachable (observedStep target) (.init pps mem) o) : Intact o :=
  h.induct (intact_init pps mem) fun _ _ _ hs hst => hs.step hst

/-- A packet goes out unchanged. -/
theorem Intact.gather {o : Observed} (h : Intact o) (k : Nat) :
    (o.egress.miov k).gather o.mem = (o.egress.miov k).bytes := by
  have heq := h.loaded.gather_eq k
  unfold Slice.gather Egress.slices at heq
  rw [List.map_map, List.map_map] at heq
  exact heq

/-- In every reachable state of the three threads, `os.writev` would read from the memory of the
buffers the bytes that `add_to_inner_packet` put into the packet, whichever `MIOVBuf` it is
given. -/
theorem slices_intact (target pps : ℚ) (mem : Nat → List UInt8) (o : Observed)
    (h : Reachable (observedStep target) (.init pps mem) o) (k : Nat) :
    (o.egress.miov k).gather o.mem = (o.egress.miov k).bytes :=
  (intact_of_reachable h).gather k

/-- A turn of `send_ack_infos` that finds a number. -/
def ackTurn : List EgressEvent := List.replicate 6 (.ackInfos 3)

/-- A datagram with one packet in it and the beginning of another, a turn of `send_ack_infos` in the
middle of it, and the first packet written. -/
def packetAndPart : List EgressEvent :=
  [turn, turn, turn, turn, turn, turn,
    .reader [0, 0, 0, 1, 0, 0, 0, 0, 0x45, 0, 0, 5, 9, 0x45, 0, 0, 7, 8] false,
    turn, turn, turn, turn, turn] ++ ackTurn ++ [turn, turn, turn, .writer, .writer]

/-- The packet in progress is read from the buffer of its datagram. -/
theorem slices_intact_part : ∃ o,
    run (observedStep 1) (.init 1 fun _ => [0, 0]) packetAndPart = .ok o ∧
      (o.egress.miov 30).bytes = [0x45, 0, 0, 7, 8] ∧
      (o.egress.miov 30).gather o.mem = (o.egress.miov 30).bytes := by
  have hends : (run (observedStep 1) (.init 1 fun _ => [0, 0]) packetAndPart).map
      (fun o => (o.egress.miov 30).bytes) = .ok [0x45, 0, 0, 7, 8] := by decide +kernel
  obtain ⟨o, ho, hbytes⟩ := map_eq_ok.mp hends
  exact ⟨o, ho, hbytes, slices_intact 1 1 _ o ⟨_, ho⟩ 30⟩

end Proofs

end Iptfs.Py
