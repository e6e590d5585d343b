import Iptfs.Model.Observed
import Iptfs.Proofs.EgressSteps

/-!
# `Iptfs.Proofs.ZeroCopy`: the slices stay readable

`read_tfs_pkts` receives into one mbuf after the other, and the inner packets on their way to the
interface point into mbufs that it has received into before. `Loaded` is the invariant: what
`writev` would read through an entry of any miov are the bytes that were there when the entry was
added.

It holds since `recvfrom` writes into an mbuf that no miov has an entry for (`Loaded.unread`). The
reader stores a reference count of one in it, and by `Conserves` that is its own reference.
`gather_eq_bytes` is the result: the packets go out as `add_to_inner_packet` put them together.
-/

set_option autoImplicit false

namespace Iptfs.Proofs

open Iptfs.Lib

/-- The memory holds what the entries of the miovs were made from. -/
structure Loaded (s : Egress) (mem : Nat → List UInt8) : Prop where
  entries : ∀ k < OUTERQSZ, ∀ v ∈ (s.miov k).iov, v.load mem = v.bytes
  /-- No entry points into the mbuf that `recvfrom` is about to write to. -/
  unread : ∀ b m, s.reader = .recv b m → s.entries b = 0
  datagram : ∀ tbuf, s.reader.datagram = some tbuf → tbuf.data <+: mem tbuf.id

/-- No miov has an entry yet, whatever is in the memory. -/
theorem loaded_init (pps : Pps) (mem : Nat → List UInt8) : Loaded (.init pps) mem where
  entries := by
    intro k _ v hv
    cases hv
  unread := by
    intro b m hr
    cases hr
  datagram := by
    intro tbuf hd
    cases hd

/-! ### Entries and memory -/

/-- A buffer without entries is in none of the miovs. -/
theorem mbuf_ne_of_entries {s : Egress} {b k : Nat} {v : Iovec} (h : s.entries b = 0)
    (hk : k < OUTERQSZ) (hv : v ∈ (s.miov k).iov) : v.mbuf ≠ b := by
  have hcount : (s.miov k).mbufs.count b = 0 :=
    (Finset.sum_eq_zero_iff.mp h) k (Finset.mem_range.mpr hk)
  have hnot : b ∉ (s.miov k).mbufs := List.count_eq_zero.mp hcount
  rintro rfl
  exact hnot (List.mem_map_of_mem hv)

/-- The entries that point at a buffer, where every miov has lost entries or kept them. -/
theorem entries_eq_zero {s t : Egress} {b : Nat} (h : s.entries b = 0)
    (hsub : ∀ k, ∀ v ∈ (t.miov k).iov, v ∈ (s.miov k).iov) : t.entries b = 0 := by
  apply Finset.sum_eq_zero
  intro k hk
  apply List.count_eq_zero.mpr
  intro hb
  obtain ⟨v, hv, hmbuf⟩ := List.mem_map.mp hb
  exact mbuf_ne_of_entries h (Finset.mem_range.mp hk) (hsub k v hv) hmbuf

/-- Another mbuf is written to. -/
theorem load_update {mem : Nat → List UInt8} {b : Nat} {v : Iovec} (h : v.mbuf ≠ b)
    (bytes : List UInt8) : v.load (Function.update mem b bytes) = v.load mem := by
  rw [Iovec.load, Iovec.load, Function.update_of_ne h]

/-- The memory after `recvfrom` begins with the datagram. -/
theorem prefix_overwrite (old data : List UInt8) : data <+: overwrite old data :=
  ⟨old.drop data.length, rfl⟩

/-- What `miov_addmbuf` adds can be read back where the mbuf holds the datagram. -/
theorem load_addmbuf {mem : Nat → List UInt8} {mi m : Miov} {tbuf : Tbuf} {start len : Nat}
    (hmem : tbuf.data <+: mem tbuf.id) (h : miovAddmbuf mi tbuf start len = .ok m) :
    ∃ v, m.iov = mi.iov ++ [v] ∧ v.load mem = v.bytes := by
  rw [miovAddmbuf] at h
  split at h
  · rename_i hle
    cases h
    refine ⟨_, rfl, ?_⟩
    obtain ⟨rest, hrest⟩ := hmem
    have hlen : ((tbuf.data.drop start).take len).length = len := by
      rw [List.length_take, List.length_drop]
      omega
    show ((mem tbuf.id).drop start).take ((tbuf.data.drop start).take len).length = _
    rw [hlen, ← hrest, List.drop_append_of_le_length (by omega),
      List.take_append_of_le_length (by rw [List.length_drop]; omega)]
  · cases h

section Step

variable {maxiov : Nat} {s t : Egress} {mem : Nat → List UInt8}

/-- A step that adds no entry, that does not come to `recvfrom`, and that begins no datagram. -/
theorem Loaded.keep (h : Loaded s mem) (hsub : ∀ k, ∀ v ∈ (t.miov k).iov, v ∈ (s.miov k).iov)
    (hrecv : ∀ b m, t.reader = .recv b m → s.reader = .recv b m ∨ s.entries b = 0)
    (hdatagram : ∀ tbuf, t.reader.datagram = some tbuf →
      ∃ tbuf₀, s.reader.datagram = some tbuf₀ ∧ tbuf.id = tbuf₀.id ∧ tbuf.data = tbuf₀.data) :
    Loaded t mem where
  entries := fun k hk v hv => h.entries k hk v (hsub k v hv)
  unread := by
    intro b m hr
    rcases hrecv b m hr with hold | hzero
    · exact entries_eq_zero (h.unread b m hold) hsub
    · exact entries_eq_zero hzero hsub
  datagram := by
    intro tbuf hd
    obtain ⟨tbuf₀, hd₀, hid, hdata⟩ := hdatagram tbuf hd
    rw [hid, hdata]
    exact h.datagram tbuf₀ hd₀

/-- The reader goes on at `r`, which has no datagram, and is not `recvfrom`. -/
theorem Loaded.goto {r : TfsReader} (h : Loaded s mem) (hmiov : t.miov = s.miov)
    (hreader : t.reader = r) (hrecv : ∀ b m, r ≠ .recv b m) (hdatagram : r.datagram = none) :
    Loaded t mem := by
  subst hreader
  refine h.keep (fun k v hv => by rwa [hmiov] at hv) ?_ ?_
  · intro b m hr
    exact absurd hr (hrecv b m)
  · intro tbuf hd
    rw [hdatagram] at hd
    cases hd

/-- The reader goes on with its datagram. -/
theorem Loaded.within {r : TfsReader} {tbuf tbuf₀ : Tbuf} (h : Loaded s mem)
    (hsub : ∀ k, ∀ v ∈ (t.miov k).iov, v ∈ (s.miov k).iov) (hreader : t.reader = r)
    (hold : s.reader.datagram = some tbuf₀) (hnew : r.datagram = some tbuf)
    (hsame : Tbuf.Same tbuf₀ tbuf) : Loaded t mem := by
  subst hreader
  refine h.keep hsub ?_ ?_
  · intro b m hr
    rw [hr] at hnew
    cases hnew
  · intro u hu
    rw [hnew] at hu
    cases hu
    exact ⟨tbuf₀, hold, hsame.1, hsame.2⟩

/-- The entries of the miov `k` are those of the datagram in hand and the ones that were there. -/
theorem Loaded.add {r : TfsReader} {tbuf rest : Tbuf} {k start len left : Nat} {m : Miov}
    {refcnt : Nat → Nat} (h : Loaded s mem) (hold : s.reader.datagram = some tbuf)
    (hadd : miovAddmbuf (s.miov k) tbuf start len = .ok m) (hrecv : ∀ b m, r ≠ .recv b m)
    (hdatagram : ∀ u, r.datagram = some u → u = rest) (hsame : Tbuf.Same tbuf rest) :
    Loaded { s.setMiov k { m with left := left } with refcnt := refcnt, reader := r } mem where
  entries := by
    intro j hj v hv
    have hv' : v ∈ (Function.update s.miov k { m with left := left } j).iov := hv
    rcases eq_or_ne j k with rfl | hne
    · rw [Function.update_self] at hv'
      obtain ⟨w, hiov, hload⟩ := load_addmbuf (h.datagram tbuf hold) hadd
      have hv'' : v ∈ (s.miov j).iov ++ [w] := hiov ▸ hv'
      rcases List.mem_append.mp hv'' with hmem | hlast
      · exact h.entries j hj v hmem
      · rw [List.mem_singleton.mp hlast]
        exact hload
    · rw [Function.update_of_ne hne] at hv'
      exact h.entries j hj v hv'
  unread := by
    intro b m' hr
    exact absurd hr (hrecv b m')
  datagram := by
    intro u hu
    have hrest := hdatagram u hu
    subst hrest
    rw [hsame.1, hsame.2]
    exact h.datagram tbuf hold

/-- A miov is written with some of its entries. -/
theorem mem_setMiov {k : Nat} {m : Miov} (hm : ∀ v ∈ m.iov, v ∈ (s.miov k).iov) (j : Nat)
    (v : Iovec) (hv : v ∈ (Function.update s.miov k m j).iov) : v ∈ (s.miov j).iov := by
  rcases eq_or_ne j k with rfl | hne
  · rw [Function.update_self] at hv
    exact hm v hv
  · rwa [Function.update_of_ne hne] at hv

/-- The first entry of a miov is dropped. -/
theorem mem_cut {k : Nat} {v : Iovec} {rest : List Iovec} (hiov : (s.miov k).iov = v :: rest)
    (j : Nat) (w : Iovec)
    (hw : w ∈ (Function.update s.miov k { s.miov k with iov := rest } j).iov) :
    w ∈ (s.miov j).iov := by
  refine mem_setMiov (m := { s.miov k with iov := rest }) ?_ j w hw
  intro u hu
  rw [hiov]
  exact List.mem_cons_of_mem _ hu

/-- A datagram is received into the buffer `b`, which no miov has an entry for. -/
theorem Loaded.receive {cfg : Config} {b : Nat} {m : Option Nat}
    {input : Option (List UInt8 × Bool)} (h : Loaded s mem) (hr : s.reader = .recv b m)
    (hstep : recvStep cfg s b m input = .ok t) :
    Loaded t (recvMem mem b input) := by
  have hzero := h.unread b m hr
  -- Whatever was received, the entries can be read as before.
  have hload : ∀ k < OUTERQSZ, ∀ v ∈ (s.miov k).iov,
      v.load (recvMem mem b input) = v.bytes := by
    intro k hk v hv
    cases input with
    | none => exact h.entries k hk v hv
    | some p =>
        rw [recvMem, load_update (mbuf_ne_of_entries hzero hk hv)]
        exact h.entries k hk v hv
  obtain ⟨ack, congest, rfl | ⟨bytes, rfl, -, ⟨k, -, rfl⟩ | ⟨tbuf, offset, henter, rfl⟩⟩⟩ :=
    recvStep_cases hstep
  · refine ⟨hload, ?_, ?_⟩
    · intro b' m' hr'
      cases hr'
    · intro tbuf hd
      cases hd
  · refine ⟨hload, ?_, ?_⟩
    · intro b' m' hr'
      cases hr'
    · intro tbuf hd
      cases hd
      show recvBytes bytes <+: Function.update mem b _ b
      rw [Function.update_self]
      exact prefix_overwrite _ _
  · obtain ⟨hid, hdata⟩ := enterInner_same henter
    refine ⟨hload, ?_, ?_⟩
    · intro b' m' hr'
      cases hr'
    · intro u hd
      cases hd
      rw [hid, hdata]
      show recvBytes bytes <+: Function.update mem b _ b
      rw [Function.update_self]
      exact prefix_overwrite _ _

end Step

/-- A step of `read_tfs_pkts`. -/
theorem Loaded.read {cfg : Config} {maxiov : Nat} {o : Observed} {t : Egress}
    {timer : Option Timespec} {input : Option (List UInt8 × Bool)}
    (h : Loaded o.egress o.mem) (hcons : Conserves maxiov o.egress)
    (hstep : readTfsStep cfg maxiov o.egress timer input = .ok t) :
    Loaded t (o.read timer input).mem := by
  have hmem : (∀ b m, o.egress.reader ≠ .recv b m) → (o.read timer input).mem = o.mem := by
    intro hno
    unfold Observed.read
    cases hr : o.egress.reader with
    | recv b m => exact absurd hr (hno b m)
    | _ => rfl
  have hin : ∀ {r : TfsReader}, o.egress.reader = r → o.egress.reader.datagram = r.datagram :=
    congrArg TfsReader.datagram
  cases readerStep_of_step hstep with
  | start hr _ | startRef hr | pop hr _ | reset hr =>
      rw [hmem (by simp [hr])]
      exact h.goto rfl rfl (by simp) rfl
  | top hr _ hnext =>
      rw [hmem (by simp [hr])]
      rcases hnext with rfl | rfl
      · exact h.goto rfl rfl (by simp) rfl
      · exact h.goto rfl rfl (by simp) rfl
  | @store b m hr =>
      rw [hmem (by simp [hr])]
      -- The buffer has no references, so no miov has an entry for it.
      have hheld : 0 < o.egress.held b := by
        rw [Egress.held, hr]
        exact List.count_pos_iff.mpr (List.mem_append_left _ (List.mem_singleton.mpr rfl))
      have hzero : o.egress.entries b = 0 := by
        have hrc := hcons.counted.rc_eq b
        rw [hcons.counted.rc_of_held hheld, Egress.refs] at hrc
        omega
      refine h.keep (fun _ _ hv => hv) ?_ ?_
      · intro b' m' hr'
        cases hr'
        exact .inr hzero
      · intro tbuf hd
        cases hd
  | @recv b m _ hr hrecv =>
      have hrec : (o.read timer input).mem = recvMem o.mem b input := by
        rw [Observed.read, hr]
      rw [hrec]
      exact h.receive hr hrecv
  | derefTurn hr hiov hnext =>
      rw [hmem (by simp [hr])]
      rcases hnext with rfl | rfl
      · exact h.within (mem_cut hiov) rfl (hin hr) rfl ⟨rfl, rfl⟩
      · exact h.within (mem_cut hiov) rfl (hin hr) rfl ⟨rfl, rfl⟩
  | derefEnded hr hiov henter =>
      rw [hmem (by simp [hr])]
      exact h.within (mem_setMiov (by simp [Miov.clean])) rfl (hin hr) rfl (enterInner_same henter)
  | derefReset hr | derefPush hr _ | popMiov hr _ =>
      rw [hmem (by simp [hr])]
      exact h.within (fun _ _ hv => hv) rfl (hin hr) rfl ⟨rfl, rfl⟩
  | keep hr _ =>
      rw [hmem (by simp [hr])]
      exact h.goto rfl rfl (by simp) rfl
  | part hr hpass hadd =>
      rw [hmem (by simp [hr])]
      exact h.add (hin hr) hadd (by simp) (by simp [TfsReader.datagram]) (innerPass_same hpass)
  | full hr hpass hadd =>
      rw [hmem (by simp [hr])]
      exact h.add (hin hr) hadd (by simp) (fun _ hu => (Option.some.inj hu).symm)
        (innerPass_same hpass)
  | pushDone hr _ =>
      rw [hmem (by simp [hr])]
      exact h.goto rfl rfl (by simp) rfl
  | pushEnter hr _ henter =>
      rw [hmem (by simp [hr])]
      exact h.within (fun _ _ hv => hv) rfl (hin hr) rfl (enterInner_same henter)

/-- A step of `write_intf_pkts` drops entries. -/
theorem Loaded.write {s t : Egress} {mem : Nat → List UInt8} (h : Loaded s mem)
    (hstep : writeIntfStep s = .ok t) : Loaded t mem := by
  have hkeep : ∀ {u : Egress}, u.reader = s.reader →
      (∀ k, ∀ v ∈ (u.miov k).iov, v ∈ (s.miov k).iov) → Loaded u mem := by
    intro u hreader hsub
    refine h.keep hsub ?_ ?_
    · intro b m hr
      exact .inl (hreader ▸ hr)
    · intro tbuf hd
      exact ⟨tbuf, hreader ▸ hd, rfl, rfl⟩
  cases writerStep_of_step hstep with
  | pop _ _ | write _ | derefReset _ | derefPush _ _ | push _ _ =>
      exact hkeep rfl fun _ _ hv => hv
  | derefTurn _ hiov _ => exact hkeep rfl (mem_cut hiov)
  | derefEnded _ _ => exact hkeep rfl (mem_setMiov (by simp [Miov.clean]))

/-! ### Runs -/

/-- What the two threads keep: the buffers are where they should be, the free miovs are clean, and
the entries can be read. -/
structure Intact (maxiov : Nat) (o : Observed) : Prop where
  conserves : Conserves maxiov o.egress
  clean : MiovsClean o.egress
  loaded : Loaded o.egress o.mem

/-- The initial state of the egress, with any memory. -/
theorem intact_init (maxiov : Nat) (pps : Pps) (mem : Nat → List UInt8) :
    Intact maxiov (.init pps mem) where
  conserves := conserves_init maxiov pps
  clean := miovsClean_init pps
  loaded := loaded_init pps mem

/-- A step of the egress, with the thread that takes it. -/
theorem observedStep_cases {cfg : Config} {maxiov : Nat} {o p : Observed} {e : EgressEvent}
    (h : observedStep cfg maxiov o e = .ok p) :
    egressStep cfg maxiov o.egress e = .ok p.egress ∧
      ((∃ timer input, e = .reader timer input ∧
          p = { o.read timer input with egress := p.egress }) ∨
        e = .writer ∧ p = { o.write with egress := p.egress }) := by
  rw [observedStep] at h
  split at h
  · cases h
  · rename_i t ht
    cases e with
    | reader timer input =>
        cases h
        exact ⟨ht, .inl ⟨timer, input, rfl, rfl⟩⟩
    | writer =>
        cases h
        exact ⟨ht, .inr ⟨rfl, rfl⟩⟩

/-- `writev` changes no memory of the mbufs. -/
theorem write_mem (o : Observed) : o.write.mem = o.mem := by
  unfold Observed.write
  cases o.egress.writer <;> rfl

/-- Each step of either thread keeps all three. `recvfrom` writes only to a buffer that no entry
points into, and `writev` writes to none. -/
theorem Intact.step {cfg : Config} {maxiov : Nat} (hfits : RefcntFits maxiov) {o p : Observed}
    {e : EgressEvent} (h : Intact maxiov o) (hstep : observedStep cfg maxiov o e = .ok p) :
    Intact maxiov p := by
  obtain ⟨hegress, ⟨timer, input, rfl, hp⟩ | ⟨rfl, hp⟩⟩ := observedStep_cases hstep
  · refine ⟨readTfsStep_conserves h.conserves hfits hegress,
      egressStep_miovsClean h.conserves h.clean hegress, ?_⟩
    rw [hp]
    exact h.loaded.read h.conserves hegress
  · refine ⟨writeIntfStep_conserves h.conserves hfits hegress,
      egressStep_miovsClean h.conserves h.clean hegress, ?_⟩
    rw [hp]
    show Loaded p.egress o.write.mem
    rw [write_mem]
    exact h.loaded.write hegress

/-- The entries can be read in every state that the two threads reach. -/
theorem intact_of_reachable {cfg : Config} {maxiov : Nat} (hfits : RefcntFits maxiov) {pps : Pps}
    {mem : Nat → List UInt8} {o : Observed}
    (h : Reachable (observedStep cfg maxiov) (.init pps mem) o) : Intact maxiov o :=
  h.induct (intact_init maxiov pps mem) fun _ _ _ hs hst => hs.step hfits hst

/-- The entries of a miov are read as they were added, so a packet goes out unchanged. -/
theorem Intact.gather {maxiov : Nat} {o : Observed} (h : Intact maxiov o) {k : Nat}
    (hk : k < OUTERQSZ) : (o.egress.miov k).gather o.mem = (o.egress.miov k).bytes := by
  rw [Miov.gather, Miov.bytes]
  congr 1
  exact List.map_congr_left fun v hv => h.loaded.entries k hk v hv

/-- In every reachable state of the two threads, `writev` would read from the memory of the mbufs
the bytes that `add_to_inner_packet` put into the packet, whichever miov it is given. -/
theorem gather_eq_bytes (cfg : Config) {maxiov : Nat} (hfits : RefcntFits maxiov) (pps : Pps)
    (mem : Nat → List UInt8) {o : Observed}
    (h : Reachable (observedStep cfg maxiov) (.init pps mem) o) {k : Nat} (hk : k < OUTERQSZ) :
    (o.egress.miov k).gather o.mem = (o.egress.miov k).bytes :=
  (intact_of_reachable hfits h).gather hk

/-- A datagram with one packet in it and the beginning of another. The first packet is written
while the reader waits for the rest of the second. -/
def packetAndPart : List EgressEvent :=
  let turn : EgressEvent := .reader none none
  [turn, turn, turn, turn, turn,
    .reader none (some ([0, 0, 0, 1, 0, 0, 0, 0, 0x45, 0, 0, 5, 9, 0x45, 0, 0, 7, 8], false)),
    turn, turn, turn, turn, turn, .writer, .writer]

/-- The packet in progress is read from the mbuf of its datagram. -/
theorem gather_eq_bytes_part : ∃ o,
    run (observedStep ⟨1500, false, false⟩ 8) (.init ⟨100, 100, 10000000⟩ fun _ => [0, 0])
      packetAndPart = .ok o ∧
      (o.egress.miov 254).bytes = [0x45, 0, 0, 7, 8] ∧
      (o.egress.miov 254).gather o.mem = (o.egress.miov 254).bytes := by
  have hends : (run (observedStep ⟨1500, false, false⟩ 8)
      (.init ⟨100, 100, 10000000⟩ fun _ => [0, 0]) packetAndPart).map
        (fun o => (o.egress.miov 254).bytes) = .ok [0x45, 0, 0, 7, 8] := by decide +kernel
  cases hrun : run (observedStep ⟨1500, false, false⟩ 8)
      (.init ⟨100, 100, 10000000⟩ fun _ => [0, 0]) packetAndPart with
  | error e =>
      rw [hrun] at hends
      cases hends
  | ok o =>
      rw [hrun] at hends
      exact ⟨o, rfl, Except.ok.inj hends,
        gather_eq_bytes ⟨1500, false, false⟩ (by unfold RefcntFits; decide) _ _ ⟨_, hrun⟩
          (by decide)⟩

end Iptfs.Proofs
