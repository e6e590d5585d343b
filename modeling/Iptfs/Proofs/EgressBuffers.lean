import Iptfs.Lib.Refcount
import Iptfs.Lib.Run
import Iptfs.Model.Egress
import Iptfs.Proofs.Reassembly

/-!
# `Iptfs.Proofs.EgressBuffers`: the buffers and miovs of the egress

One buffer is shared by all the inner packets that have bytes in it, and these are in the
hands of two threads. `Iptfs.Lib.Refcount` has the rules for a pool of such buffers. Here
they are applied to the pool of `freeq`:

* on the free list are the buffers in `freeq`;
* held without a reference are those in `TfsReader.hands` and `IntfWriter.hands`: just taken
  from `freeq`, or on the way back to it;
* the references are the entries of all miovs, and the reader's own (`TfsReader.own`).

`Conserves` is the invariant. `readTfsStep_conserves` and `writeIntfStep_conserves` are its
step lemmas; the cases of each are one lemma for each kind of operation.
-/

set_option autoImplicit false

namespace Iptfs

/-- The buffer that `read_tfs_pkts` has its own reference to. -/
def TfsReader.own : TfsReader → List Nat
  | .start => []
  | .startRef _ => []
  | .top b _ => [b]
  | .reset _ _ => []
  | .pop _ => []
  | .store _ _ => []
  | .recv b _ => [b]
  | .deref tbuf _ => [tbuf.id]
  | .derefReset tbuf _ _ => [tbuf.id]
  | .derefPush tbuf _ _ => [tbuf.id]
  | .inner tbuf _ _ => [tbuf.id]
  | .push tbuf _ _ => [tbuf.id]

/-- The buffers in the hands of `read_tfs_pkts` that nobody has a reference to. -/
def TfsReader.hands : TfsReader → List Nat
  | .startRef b => [b]
  | .reset b _ => [b]
  | .store b _ => [b]
  | .derefReset _ _ b => [b]
  | .derefPush _ _ b => [b]
  | _ => []

/-- The miov in the hands of `read_tfs_pkts`. -/
def TfsReader.miovs : TfsReader → List Nat
  | .start => []
  | .startRef _ => []
  | .top _ m => m.toList
  | .reset _ m => m.toList
  | .pop m => m.toList
  | .store _ m => m.toList
  | .recv _ m => m.toList
  | .deref _ m => [m]
  | .derefReset _ m _ => [m]
  | .derefPush _ m _ => [m]
  | .inner _ _ m => m.toList
  | .push _ m _ => [m]

/-- The buffers in the hands of `write_intf_pkts`. -/
def IntfWriter.hands : IntfWriter → List Nat
  | .derefReset _ b => [b]
  | .derefPush _ b => [b]
  | _ => []

/-- The miov in the hands of `write_intf_pkts`. -/
def IntfWriter.miovs : IntfWriter → List Nat
  | .pop => []
  | .write m => [m]
  | .deref m => [m]
  | .derefReset m _ => [m]
  | .derefPush m _ => [m]
  | .push m => [m]

/-- The buffers that the entries of a miov point at. -/
def Miov.mbufs (m : Miov) : List Nat := m.iov.map Iovec.mbuf

namespace Egress

/-- The number of miov entries that point at the buffer `b`. -/
def entries (s : Egress) (b : Nat) : Nat :=
  ∑ k ∈ Finset.range OUTERQSZ, (s.miov k).mbufs.count b

/-- The reader's own reference to `b`, and the entries that point at it. -/
def refs (s : Egress) (b : Nat) : Nat := s.reader.own.count b + s.entries b

/-- How often `b` is in the hands of a thread without a reference. -/
def held (s : Egress) (b : Nat) : Nat := (s.reader.hands ++ s.writer.hands).count b

/-- The miovs, by where they are: `iovfreeq`, `outq`, the reader, the writer. -/
def miovs (s : Egress) : List Nat :=
  s.iovfreeq.queue ++ (s.outq.queue ++ (s.reader.miovs ++ s.writer.miovs))

end Egress

namespace Proofs

open Iptfs.Lib

/-- One for the buffers of the pool. -/
def outerPool (b : Nat) : Nat := if b < OUTERQSZ then 1 else 0

/-- The egress between two steps. -/
structure Conserves (maxiov : Nat) (s : Egress) : Prop where
  counted : Counted outerPool (fun b => s.freeq.queue.count b) s.held s.refcnt s.refs
  miovs : s.miovs.Perm (List.range OUTERQSZ)
  room : ∀ k, (s.miov k).niov ≤ maxiov
  /-- A miov that is free has no entries. -/
  clean : ∀ k ∈ s.iovfreeq.queue, (s.miov k).iov = []
  /-- And so has one that is about to be. -/
  cleared : ∀ k, s.writer = .push k → (s.miov k).iov = []
  freeq : s.freeq.size = OUTERQSZ
  iovfreeq : s.iovfreeq.size = OUTERQSZ
  outq : s.outq.size = OUTERQSZ

/-- The references to one buffer fit a `uint32_t`: the reader's own, and all the entries of all
the miovs. -/
def RefcntFits (maxiov : Nat) : Prop := OUTERQSZ * maxiov + 2 < 2 ^ 32

/-- The buffers of the pool are those below `OUTERQSZ`. -/
theorem mem_range_iff_outerPool (b : Nat) : b ∈ List.range OUTERQSZ ↔ outerPool b = 1 := by
  rw [List.mem_range, outerPool]
  split <;> simp [*]

/-- At first all the mbufs and all the miovs are free. No miov has an entry, so that no buffer has
a reference. -/
theorem conserves_init (maxiov : Nat) (pps : Pps) : Conserves maxiov (Egress.init pps) where
  counted := by
    have hrefs : ∀ b, (Egress.init pps).refs b = 0 := by
      intro b
      show [].count b + ∑ k ∈ Finset.range OUTERQSZ, (Miov.clean.mbufs).count b = 0
      simp [Miov.mbufs, Miov.clean]
    refine ⟨fun b => ?_, fun b => (hrefs b).symm, fun b => ?_⟩
    · rw [outerPool]
      split <;> omega
    · show ((List.range OUTERQSZ).reverse.map id).count b + 0 + min 1 0 = outerPool b
      rw [List.map_id, List.count_reverse, List.count_range, outerPool]
      rfl
  miovs := by
    show ((List.range OUTERQSZ).reverse.map id ++ ([] ++ ([] ++ []))).Perm (List.range OUTERQSZ)
    simp
  room := fun k => Nat.zero_le _
  clean := fun k _ => rfl
  cleared := by
    intro k hk
    cases hk
  freeq := rfl
  iovfreeq := rfl
  outq := rfl

/-! ### The steps in parts -/

/-- Where `add_to_inner_packet` begins or goes around, the egress is at the control point inside
it, with what `enterInner` computes from the datagram. -/
theorem enterStep_ok {s t : Egress} {tbuf : Tbuf} {new : Bool} {m : Option Nat}
    (h : enterStep s tbuf new m = .ok t) :
    ∃ tbuf' offset, enterInner tbuf new = .ok (tbuf', offset) ∧
      t = { s with reader := .inner tbuf' offset m } := by
  rw [enterStep] at h
  cases henter : enterInner tbuf new with
  | error f =>
      rw [henter] at h
      cases h
  | ok p =>
      obtain ⟨tbuf', offset⟩ := p
      rw [henter] at h
      cases h
      exact ⟨tbuf', offset, rfl, rfl⟩

/-- The buffer is left for the next datagram, or a datagram was received into it: the packet in
progress is to be abandoned, or `add_to_inner_packet` has begun. -/
theorem recvStep_cases {cfg : Config} {s t : Egress} {b : Nat} {m : Option Nat}
    {input : Option (List UInt8 × Bool)} (h : recvStep cfg s b m input = .ok t) :
    ∃ ack congest,
      t = { s with ack := ack, congest := congest, reader := .top b m } ∨
      ∃ bytes, input = some (bytes, false) ∧ 8 ≤ (recvBytes bytes).length ∧
        ((∃ k, m = some k ∧ t = { s with
            ack := ack, congest := congest
            reader := .deref (Tbuf.fresh b (recvBytes bytes)) k }) ∨
          ∃ tbuf offset, enterInner (Tbuf.fresh b (recvBytes bytes)) true = .ok (tbuf, offset) ∧
            t = { s with ack := ack, congest := congest, reader := .inner tbuf offset m }) := by
  unfold recvStep at h
  cases input with
  | none =>
      cases h
      exact ⟨_, _, .inl rfl⟩
  | some p =>
      obtain ⟨bytes, limited⟩ := p
      dsimp only at h
      split at h
      · cases h
      · cases h
        exact ⟨_, _, .inl rfl⟩
      · cases h
        exact ⟨_, _, .inl rfl⟩
      · cases h
        exact ⟨_, _, .inl rfl⟩
      · cases h
        exact ⟨_, _, .inl rfl⟩
      · split at h
        · cases h
        · cases h
          exact ⟨_, _, .inl rfl⟩
      · -- A data datagram has its header, and the limiter let it through.
        rename_i seq hclass
        obtain ⟨hlong, hunlimited⟩ : 8 ≤ (recvBytes bytes).length ∧ limited = false := by
          rw [classify] at hclass
          split at hclass
          · cases hclass
          · split at hclass
            · cases hclass
            · split at hclass
              · cases hclass
              · rename_i hlen hlim
                exact ⟨Nat.le_of_not_lt hlen, Bool.not_eq_true _ ▸ hlim⟩
        subst hunlimited
        split at h
        · cases h
          exact ⟨_, _, .inl rfl⟩
        · split at h
          · split at h
            · cases h
              -- A gap, with a packet in progress: `miov_reset` has the first say.
              exact ⟨_, _, .inr ⟨bytes, rfl, hlong, .inl ⟨_, rfl, rfl⟩⟩⟩
            · obtain ⟨tbuf, offset, henter, rfl⟩ := enterStep_ok h
              exact ⟨_, _, .inr ⟨bytes, rfl, hlong, .inr ⟨tbuf, offset, henter, rfl⟩⟩⟩
          · obtain ⟨tbuf, offset, henter, rfl⟩ := enterStep_ok h
            exact ⟨_, _, .inr ⟨bytes, rfl, hlong, .inr ⟨tbuf, offset, henter, rfl⟩⟩⟩

section Step

variable {maxiov : Nat} {s : Egress}

/-- A miov that is anywhere is one of the pool. -/
theorem Conserves.lt_of_mem (h : Conserves maxiov s) {k : Nat} (hk : k ∈ s.miovs) :
    k < OUTERQSZ := List.mem_range.mp (h.miovs.mem_iff.mp hk)

/-- No miov is in two places. -/
theorem Conserves.nodup (h : Conserves maxiov s) : s.miovs.Nodup :=
  h.miovs.nodup_iff.mpr List.nodup_range

/-- The miov in the hands of the reader is not free, and not in the hands of the writer. -/
theorem Conserves.of_reader (h : Conserves maxiov s) {k : Nat} (hk : k ∈ s.reader.miovs) :
    k < OUTERQSZ ∧ k ∉ s.iovfreeq.queue ∧ k ∉ s.writer.miovs := by
  have hnodup := h.nodup
  rw [Egress.miovs, List.nodup_append, List.nodup_append, List.nodup_append] at hnodup
  obtain ⟨-, ⟨-, ⟨-, -, hrw⟩, -⟩, hfree⟩ := hnodup
  refine ⟨h.lt_of_mem ?_, fun hmem => ?_, fun hmem => hrw k hk k hmem rfl⟩
  · simp [Egress.miovs, hk]
  · exact hfree k hmem k (by simp [hk]) rfl

/-- The miov in the hands of the writer is not free. -/
theorem Conserves.of_writer (h : Conserves maxiov s) {k : Nat} (hk : k ∈ s.writer.miovs) :
    k < OUTERQSZ ∧ k ∉ s.iovfreeq.queue := by
  have hnodup := h.nodup
  rw [Egress.miovs, List.nodup_append] at hnodup
  obtain ⟨-, -, hfree⟩ := hnodup
  refine ⟨h.lt_of_mem ?_, fun hmem => ?_⟩
  · simp [Egress.miovs, hk]
  · exact hfree k hmem k (by simp [hk]) rfl

/-- Writing a miov that is not free leaves the free ones without entries. -/
theorem Conserves.clean_setMiov (h : Conserves maxiov s) {k : Nat} (hk : k ∉ s.iovfreeq.queue)
    (m : Miov) : ∀ j ∈ s.iovfreeq.queue, ((s.setMiov k m).miov j).iov = [] := by
  intro j hj
  have hne : j ≠ k := by
    rintro rfl
    exact hk hj
  show (Function.update s.miov k m j).iov = []
  rw [Function.update_of_ne hne]
  exact h.clean j hj

/-- Writing a miov that the writer does not have keeps the one that it pushes. -/
theorem Conserves.cleared_setMiov (h : Conserves maxiov s) {k : Nat} (hk : k ∉ s.writer.miovs)
    (m : Miov) : ∀ j, s.writer = .push j → ((s.setMiov k m).miov j).iov = [] := by
  intro j hj
  have hne : j ≠ k := by
    rintro rfl
    rw [hj] at hk
    exact hk (List.mem_singleton.mpr rfl)
  show (Function.update s.miov k m j).iov = []
  rw [Function.update_of_ne hne]
  exact h.cleared j hj

/-- The reader has a reference of its own to one buffer at most. -/
theorem length_own_le (r : TfsReader) : r.own.length ≤ 1 := by
  cases r <;> simp [TfsReader.own]

/-- A reference count never comes near the end of a `uint32_t`. -/
theorem Conserves.refcnt_lt (h : Conserves maxiov s) (hfits : RefcntFits maxiov) (b : Nat) :
    s.refcnt b + 1 < 2 ^ 32 := by
  have hown : s.reader.own.count b ≤ 1 := Nat.le_trans List.count_le_length (length_own_le _)
  have hentries : s.entries b ≤ OUTERQSZ * maxiov := by
    refine sum_le fun k _ => ?_
    have hcount : (s.miov k).mbufs.count b ≤ (s.miov k).mbufs.length := List.count_le_length
    rw [Miov.mbufs, List.length_map] at hcount
    exact Nat.le_trans hcount (h.room k)
  have hrc := h.counted.rc_eq b
  rw [Egress.refs] at hrc
  unfold RefcntFits at hfits
  omega

/-! ### The atomic operations -/

/-- `atomic_fetch_add` on one count. Far from the end of a `uint32_t` it is one more reference,
and the other counts stay. -/
theorem refcnt_fetchAdd {b : Nat} (hlt : s.refcnt b + 1 < 2 ^ 32) (c : Nat) :
    (s.fetchAdd b).refcnt c = s.refcnt c + single b c := by
  show Function.update s.refcnt b ((s.refcnt b + 1) % 2 ^ 32) c = _
  rcases eq_or_ne c b with rfl | hc
  · rw [Function.update_self, single_self, Nat.mod_eq_of_lt hlt]
  · rw [Function.update_of_ne hc, single_of_ne hc, Nat.add_zero]

/-- `atomic_fetch_sub` on a count that is not zero is one reference less. It is stated the way
around in which nothing is subtracted. -/
theorem refcnt_fetchSub {b : Nat} (hpos : 0 < s.refcnt b) (hlt : s.refcnt b + 1 < 2 ^ 32)
    (c : Nat) : s.refcnt c = (s.fetchSub b).refcnt c + single b c := by
  show _ = Function.update s.refcnt b ((s.refcnt b + 2 ^ 32 - 1) % 2 ^ 32) c + _
  rcases eq_or_ne c b with rfl | hc
  · rw [Function.update_self, single_self]
    omega
  · rw [Function.update_of_ne hc, single_of_ne hc, Nat.add_zero]

/-- The store of a one into a count that is zero is one more reference. -/
theorem refcnt_storeOne {b : Nat} (hzero : s.refcnt b = 0) (c : Nat) :
    (s.storeOne b).refcnt c = s.refcnt c + single b c := by
  show Function.update s.refcnt b 1 c = _
  rcases eq_or_ne c b with rfl | hc
  · rw [Function.update_self, single_self, hzero]
  · rw [Function.update_of_ne hc, single_of_ne hc, Nat.add_zero]

/-- The entries that point at `c` after the miov `k` is written. -/
theorem entries_setMiov {k : Nat} (hk : k < OUTERQSZ) (m : Miov) (c : Nat) :
    (s.setMiov k m).entries c + (s.miov k).mbufs.count c = s.entries c + m.mbufs.count c :=
  sum_update (fun m : Miov => m.mbufs.count c) s.miov hk m

/-- The entries after the first of the miov `k` is gone. -/
theorem entries_cut {k : Nat} (hk : k < OUTERQSZ) {v : Iovec} {rest : List Iovec}
    (hiov : (s.miov k).iov = v :: rest) (c : Nat) :
    s.entries c = (s.setMiov k { s.miov k with iov := rest }).entries c + single v.mbuf c := by
  have hset := entries_setMiov (s := s) hk { s.miov k with iov := rest } c
  have hold : (s.miov k).mbufs = v.mbuf :: rest.map Iovec.mbuf := by
    rw [Miov.mbufs, hiov]
    rfl
  rw [hold, count_cons_single] at hset
  have hnew : (Miov.mbufs { s.miov k with iov := rest }).count c =
      (rest.map Iovec.mbuf).count c := rfl
  omega

/-- What dropping the first entry of the miov `k` does to the counts. -/
theorem Conserves.turn (h : Conserves maxiov s) (hfits : RefcntFits maxiov) {k : Nat}
    (hk : k < OUTERQSZ) {v : Iovec} {rest : List Iovec} (hiov : (s.miov k).iov = v :: rest) :
    (∀ c, s.refcnt c =
      ((s.setMiov k { s.miov k with iov := rest }).fetchSub v.mbuf).refcnt c + single v.mbuf c) ∧
    (∀ c, s.entries c =
      ((s.setMiov k { s.miov k with iov := rest }).fetchSub v.mbuf).entries c + single v.mbuf c) ∧
    ∀ j, (((s.setMiov k { s.miov k with iov := rest }).fetchSub v.mbuf).miov j).niov ≤ maxiov := by
  have hentries := entries_cut hk hiov
  have hpos : 0 < s.refcnt v.mbuf := by
    have hrc := h.counted.rc_eq v.mbuf
    have hv := hentries v.mbuf
    rw [single_self] at hv
    rw [Egress.refs] at hrc
    omega
  refine ⟨refcnt_fetchSub (s := s.setMiov k _) hpos (h.refcnt_lt hfits v.mbuf), hentries, ?_⟩
  intro j
  show (Function.update s.miov k _ j).niov ≤ maxiov
  have hj := h.room j
  rcases eq_or_ne j k with rfl | hne
  · rw [Function.update_self]
    rw [Miov.niov, hiov, List.length_cons] at hj
    exact Nat.le_of_succ_le hj
  · rw [Function.update_of_ne hne]
    exact hj

/-- Clearing a miov without entries changes no count. -/
theorem entries_clear {k : Nat} (hk : k < OUTERQSZ) (hiov : (s.miov k).iov = []) (c : Nat) :
    (s.setMiov k (miovReset (s.miov k))).entries c = s.entries c := by
  have hset := entries_setMiov (s := s) hk (miovReset (s.miov k)) c
  have hold : (s.miov k).mbufs = [] := by
    rw [Miov.mbufs, hiov]
    rfl
  have hnew : (miovReset (s.miov k)).mbufs = [] := rfl
  rw [hold, hnew, List.count_nil] at hset
  omega

/-- The miovs after one without entries is cleared. -/
theorem niov_clear (h : ∀ j, (s.miov j).niov ≤ maxiov) (k j : Nat) :
    ((s.setMiov k (miovReset (s.miov k))).miov j).niov ≤ maxiov := by
  show (Function.update s.miov k _ j).niov ≤ maxiov
  rcases eq_or_ne j k with rfl | hne
  · rw [Function.update_self]
    exact Nat.zero_le _
  · rw [Function.update_of_ne hne]
    exact h j

/-! ### The steps of `read_tfs_pkts` -/

/-- The reader goes on with the same buffers and the same miov in its hands. -/
theorem Conserves.goto {r r' : TfsReader} {ack : Ackinfo} {congest : Congest}
    (h : Conserves maxiov { s with reader := r }) (hown : r'.own = r.own)
    (hhands : r'.hands = r.hands) (hmiovs : r'.miovs = r.miovs) :
    Conserves maxiov { s with reader := r', ack := ack, congest := congest } where
  counted := by
    refine h.counted.congr (fun b => ?_) (fun b => ?_)
    · show (r'.hands ++ s.writer.hands).count b = (r.hands ++ s.writer.hands).count b
      rw [hhands]
    · show r'.own.count b + s.entries b = r.own.count b + s.entries b
      rw [hown]
  miovs := by
    show (s.iovfreeq.queue ++ (s.outq.queue ++ (r'.miovs ++ s.writer.miovs))).Perm _
    rw [hmiovs]
    exact h.miovs
  room := h.room
  clean := h.clean
  cleared := h.cleared
  freeq := h.freeq
  iovfreeq := h.iovfreeq
  outq := h.outq

/-- A buffer is popped from `freeq`, and is held. -/
theorem Conserves.popFreeq {r r' : TfsReader} {b : Nat} {freeq : Queue Nat}
    (h : Conserves maxiov { s with reader := r }) (hpop : mqueuePop s.freeq = some (b, freeq))
    (hown : r'.own = r.own) (hhands : r.hands = []) (hhands' : r'.hands = [b])
    (hmiovs : r'.miovs = r.miovs) :
    Conserves maxiov { s with freeq := freeq, reader := r' } where
  counted := by
    -- Nothing refers to a free buffer, so that no count changes when it is taken.
    have hrefs : ∀ c, Egress.refs { s with freeq := freeq, reader := r' } c =
        Egress.refs { s with reader := r } c := by
      intro c
      show r'.own.count c + s.entries c = r.own.count c + s.entries c
      rw [hown]
    refine (h.counted.congr (fun _ => rfl) hrefs).take (b := b) (fun c => ?_) (fun c => ?_)
    · show s.freeq.queue.count c = freeq.queue.count c + single b c
      rw [(Queue.pop_eq_some.mp hpop).1, count_cons_single]
    · show (r'.hands ++ s.writer.hands).count c = (r.hands ++ s.writer.hands).count c + single b c
      rw [hhands, hhands']
      exact count_cons_single b c s.writer.hands
  miovs := by
    show (s.iovfreeq.queue ++ (s.outq.queue ++ (r'.miovs ++ s.writer.miovs))).Perm _
    rw [hmiovs]
    exact h.miovs
  room := h.room
  clean := h.clean
  cleared := h.cleared
  freeq := by
    show freeq.size = OUTERQSZ
    rw [(Queue.pop_eq_some.mp hpop).2]
    exact h.freeq
  iovfreeq := h.iovfreeq
  outq := h.outq

/-- The reader takes its own reference to the buffer it holds. `f` is the atomic operation. -/
theorem Conserves.takeRef {r r' : TfsReader} {b : Nat} {refcnt : Nat → Nat}
    (h : Conserves maxiov { s with reader := r })
    (hrefcnt : ∀ c, refcnt c = s.refcnt c + single b c)
    (hown : r.own = []) (hown' : r'.own = [b]) (hhands : r.hands = [b]) (hhands' : r'.hands = [])
    (hmiovs : r'.miovs = r.miovs) :
    Conserves maxiov { s with refcnt := refcnt, reader := r' } where
  counted := by
    refine h.counted.claim (b := b) (fun c => ?_) hrefcnt (fun c => ?_)
    · show (r.hands ++ s.writer.hands).count c = (r'.hands ++ s.writer.hands).count c + single b c
      rw [hhands, hhands']
      exact count_cons_single b c s.writer.hands
    · show r'.own.count c + s.entries c = r.own.count c + s.entries c + single b c
      rw [hown, hown', count_cons_single]
      omega
  miovs := by
    show (s.iovfreeq.queue ++ (s.outq.queue ++ (r'.miovs ++ s.writer.miovs))).Perm _
    rw [hmiovs]
    exact h.miovs
  room := h.room
  clean := h.clean
  cleared := h.cleared
  freeq := h.freeq
  iovfreeq := h.iovfreeq
  outq := h.outq

/-- The reader drops its own reference. If it was the last one, the reader holds the buffer. -/
theorem Conserves.dropRef {b : Nat} {m : Option Nat} {ack : Ackinfo}
    (h : Conserves maxiov { s with reader := .top b m }) (hfits : RefcntFits maxiov) :
    Conserves maxiov { s.fetchSub b with
      ack := ack
      reader := if s.refcnt b = 1 then .reset b m else .pop m } := by
  have hlt := h.refcnt_lt hfits b
  have hpos : 0 < s.refcnt b := by
    have hrc : s.refcnt b = [b].count b + s.entries b := h.counted.rc_eq b
    rw [count_cons_single, single_self] at hrc
    omega
  have hrefcnt := refcnt_fetchSub (s := s) hpos hlt
  have hrefs : ∀ c, [b].count c + s.entries c = 0 + s.entries c + single b c := by
    intro c
    rw [count_cons_single, List.count_nil]
    omega
  by_cases hlast : s.refcnt b = 1
  · rw [if_pos hlast]
    refine ⟨h.counted.dropLast hlast hrefcnt hrefs (fun c => ?_), h.miovs, h.room, h.clean,
      h.cleared, h.freeq, h.iovfreeq, h.outq⟩
    exact count_cons_single b c s.writer.hands
  · rw [if_neg hlast]
    exact ⟨h.counted.drop hlast hrefcnt hrefs, h.miovs, h.room, h.clean, h.cleared, h.freeq,
      h.iovfreeq, h.outq⟩

/-- The start of a datagram, or of the rest of one. -/
theorem Conserves.enter {r r' : TfsReader} {tbuf : Tbuf} {new : Bool} {m : Option Nat} {t : Egress}
    {ack : Ackinfo} {congest : Congest} (h : Conserves maxiov { s with reader := r })
    (hown : r.own = [tbuf.id]) (hhands : r.hands = []) (hmiovs : r.miovs = m.toList)
    (hstep : enterStep { s with reader := r', ack := ack, congest := congest } tbuf new m = .ok t) :
    Conserves maxiov t := by
  obtain ⟨tbuf', offset, henter, rfl⟩ := enterStep_ok hstep
  have hid := (enterInner_same henter).1
  refine h.goto ?_ hhands.symm hmiovs.symm
  rw [hown, TfsReader.own, hid]

/-- `recvfrom`, and the tests up to the call of `miov_reset` or `add_to_inner_packet`. -/
theorem Conserves.recv {cfg : Config} {b : Nat} {m : Option Nat}
    {input : Option (List UInt8 × Bool)} {t : Egress}
    (h : Conserves maxiov { s with reader := .recv b m })
    (hstep : recvStep cfg { s with reader := .recv b m } b m input = .ok t) :
    Conserves maxiov t := by
  obtain ⟨ack, congest, hcases⟩ := recvStep_cases hstep
  rcases hcases with rfl | ⟨bytes, -, -, ⟨k, rfl, rfl⟩ | ⟨tbuf, offset, henter, rfl⟩⟩
  · exact h.goto rfl rfl rfl
  · exact h.goto rfl rfl rfl
  · have hid : tbuf.id = b := (enterInner_same henter).1
    refine h.goto ?_ rfl rfl
    show [tbuf.id] = [b]
    rw [hid]

/-- One turn of `miov_reset` in the reader. -/
theorem Conserves.readerDeref {tbuf : Tbuf} {k : Nat} {t : Egress}
    (h : Conserves maxiov { s with reader := .deref tbuf k }) (hfits : RefcntFits maxiov)
    (hstep : (match miovResetTurn { s with reader := .deref tbuf k } k with
      | (s, .ended) => enterStep s tbuf true (some k)
      | (s, .dropped) => .ok { s with reader := .deref tbuf k }
      | (s, .last b) => .ok { s with reader := .derefReset tbuf k b }) = .ok t) :
    Conserves maxiov t := by
  obtain ⟨hk, hfree, hwriter⟩ := h.of_reader (List.mem_singleton.mpr rfl)
  have hclean := h.clean_setMiov hfree
  have hcleared := h.cleared_setMiov hwriter
  cases hiov : (s.miov k).iov with
  -- The last entry is gone, and the miov is cleared. It had no references any more.
  | nil =>
      simp only [miovResetTurn, hiov] at hstep
      have hreset : Conserves maxiov { s.setMiov k (miovReset (s.miov k)) with
          reader := .deref tbuf k } := by
        refine ⟨h.counted.congr (fun _ => rfl) (fun c => ?_), h.miovs, niov_clear h.room k,
          hclean _, hcleared _, h.freeq, h.iovfreeq, h.outq⟩
        show [tbuf.id].count c + (s.setMiov k (miovReset (s.miov k))).entries c =
          [tbuf.id].count c + s.entries c
        rw [entries_clear hk hiov]
      exact hreset.enter rfl rfl rfl hstep
  -- An entry goes, and its reference with it.
  | cons v rest =>
      obtain ⟨hrefcnt, hentries, hroom⟩ := h.turn hfits hk hiov
      have hrefs : ∀ c, Egress.refs { s with reader := .deref tbuf k } c =
          [tbuf.id].count c + (((s.setMiov k { s.miov k with iov := rest }).fetchSub
            v.mbuf).entries c) + single v.mbuf c := by
        intro c
        show [tbuf.id].count c + s.entries c = _
        have hc : s.entries c = ((s.setMiov k { s.miov k with iov := rest }).fetchSub
            v.mbuf).entries c + single v.mbuf c := hentries c
        omega
      simp only [miovResetTurn, hiov] at hstep
      -- The last reference: the buffer is in the hands of the reader, on its way to `freeq`.
      by_cases hlast : s.refcnt v.mbuf = 1
      · simp only [hlast, if_true] at hstep
        cases hstep
        refine ⟨h.counted.dropLast hlast hrefcnt hrefs (fun c => ?_), h.miovs, hroom, hclean _,
          hcleared _, h.freeq, h.iovfreeq, h.outq⟩
        exact count_cons_single v.mbuf c s.writer.hands
      · simp only [hlast, if_false] at hstep
        cases hstep
        exact ⟨h.counted.drop hlast hrefcnt hrefs, h.miovs, hroom, hclean _, hcleared _, h.freeq,
          h.iovfreeq, h.outq⟩

/-- A buffer without references is pushed on `freeq` by the reader. -/
theorem Conserves.readerPush {tbuf : Tbuf} {k b : Nat} {freeq : Queue Nat}
    (h : Conserves maxiov { s with reader := .derefPush tbuf k b })
    (hpush : mqueuePush s.freeq b = some freeq) :
    Conserves maxiov { s with freeq := freeq, reader := .deref tbuf k } where
  counted := by
    refine h.counted.put (b := b) (fun c => ?_) (fun c => ?_)
    · exact count_cons_single b c s.writer.hands
    · show freeq.queue.count c = s.freeq.queue.count c + single b c
      rw [(Queue.push_eq_some.mp hpush).1, count_cons_single]
  miovs := h.miovs
  room := h.room
  clean := h.clean
  cleared := h.cleared
  freeq := by
    show freeq.size = OUTERQSZ
    rw [(Queue.push_eq_some.mp hpush).2]
    exact h.freeq
  iovfreeq := h.iovfreeq
  outq := h.outq

/-- A miov is popped from `iovfreeq` by the reader. -/
theorem Conserves.popIovfreeq {tbuf : Tbuf} {offset k : Nat} {iovfreeq : Queue Nat}
    (h : Conserves maxiov { s with reader := .inner tbuf offset none })
    (hpop : miovqPop s.iovfreeq = some (k, iovfreeq)) :
    Conserves maxiov
      { s with iovfreeq := iovfreeq, reader := .inner tbuf offset (some k) } where
  counted := h.counted
  miovs := by
    refine List.Perm.trans ?_ h.miovs
    rw [List.perm_iff_count]
    intro c
    simp only [Egress.miovs, (Queue.pop_eq_some.mp hpop).1, TfsReader.miovs,
      Option.toList_some, Option.toList_none, List.count_append, List.count_cons, List.count_nil]
    omega
  room := h.room
  clean := by
    intro j hj
    apply h.clean
    show j ∈ s.iovfreeq.queue
    rw [(Queue.pop_eq_some.mp hpop).1]
    exact List.mem_cons_of_mem _ hj
  cleared := h.cleared
  freeq := h.freeq
  iovfreeq := by
    show iovfreeq.size = OUTERQSZ
    rw [(Queue.pop_eq_some.mp hpop).2]
    exact h.iovfreeq
  outq := h.outq

/-- The reader pushes its miov on the outq. -/
theorem Conserves.pushOutq {tbuf : Tbuf} {k : Nat} {recurse : Bool} {outq : Queue Nat}
    (h : Conserves maxiov { s with reader := .push tbuf k recurse })
    (hpush : miovqPush s.outq k = some outq) :
    Conserves maxiov { s with outq := outq, reader := .top tbuf.id none } where
  counted := h.counted
  miovs := by
    refine List.Perm.trans ?_ h.miovs
    rw [List.perm_iff_count]
    intro c
    simp only [Egress.miovs, (Queue.push_eq_some.mp hpush).1, TfsReader.miovs,
      Option.toList_none, List.count_append, List.count_cons, List.count_nil]
    omega
  room := h.room
  clean := h.clean
  cleared := h.cleared
  freeq := h.freeq
  iovfreeq := h.iovfreeq
  outq := by
    show outq.size = OUTERQSZ
    rw [(Queue.push_eq_some.mp hpush).2]
    exact h.outq

/-- The entries after one that points at `b` is added to the miov `k`. -/
theorem entries_add {k b : Nat} {m : Miov} (hk : k < OUTERQSZ)
    (hm : m.mbufs = (s.miov k).mbufs ++ [b]) (c : Nat) :
    (s.setMiov k m).entries c = s.entries c + single b c := by
  have hset := entries_setMiov (s := s) hk m c
  have hnew : m.mbufs.count c = (s.miov k).mbufs.count c + single b c := by
    rw [hm, List.count_append, count_cons_single, List.count_nil, Nat.zero_add]
  omega

/-- `miov_addmbuf`: an entry and a reference more. -/
theorem Conserves.addmbuf {tbuf : Tbuf} {offset k start len left : Nat} {t : Egress}
    (h : Conserves maxiov { s with reader := .inner tbuf offset (some k) })
    (hfits : RefcntFits maxiov)
    (hstep : addmbufStep maxiov { s with reader := .inner tbuf offset (some k) } k tbuf start len
      left = .ok t) : Conserves maxiov { t with reader := .inner tbuf offset (some k) } := by
  obtain ⟨hk, hfree, hwriter⟩ := h.of_reader (List.mem_singleton.mpr rfl)
  have hclean := h.clean_setMiov hfree
  have hcleared := h.cleared_setMiov hwriter
  rw [addmbufStep] at hstep
  split at hstep
  · rename_i hroom
    by_cases hfit : start + len ≤ tbuf.data.length
    · rw [miovAddmbuf, if_pos hfit] at hstep
      cases hstep
      -- The reader has its own reference to the buffer, so the new one is not the first.
      have hpos : 0 < s.refcnt tbuf.id := by
        have hrc : s.refcnt tbuf.id = [tbuf.id].count tbuf.id + s.entries tbuf.id :=
          h.counted.rc_eq tbuf.id
        rw [count_cons_single, single_self] at hrc
        omega
      refine ⟨h.counted.share (b := tbuf.id) hpos (refcnt_fetchAdd (h.refcnt_lt hfits tbuf.id))
        (fun c => ?_), h.miovs, fun j => ?_, hclean _, hcleared _, h.freeq, h.iovfreeq, h.outq⟩
      · show [tbuf.id].count c + (s.setMiov k _).entries c = [tbuf.id].count c + s.entries c + _
        rw [entries_add (b := tbuf.id) hk (by simp [Miov.mbufs])]
        omega
      · show (Function.update s.miov k _ j).niov ≤ maxiov
        rcases eq_or_ne j k with rfl | hne
        · rw [Function.update_self, Miov.niov, List.length_append]
          exact hroom
        · rw [Function.update_of_ne hne]
          exact h.room j
    · rw [miovAddmbuf, if_neg hfit] at hstep
      cases hstep
  · cases hstep

/-- A pass of `add_to_inner_packet`. -/
theorem Conserves.inner {tbuf : Tbuf} {offset k : Nat} {t : Egress}
    (h : Conserves maxiov { s with reader := .inner tbuf offset (some k) })
    (hfits : RefcntFits maxiov)
    (hstep : innerStepOn maxiov { s with reader := .inner tbuf offset (some k) } tbuf offset k =
      .ok t) : Conserves maxiov t := by
  rw [innerStepOn] at hstep
  split at hstep
  · cases hstep
  · rename_i rest hpass
    cases hstep
    refine h.goto ?_ rfl rfl
    have hid : rest.id = tbuf.id := (innerPass_same hpass).1
    show [rest.id] = [tbuf.id]
    rw [hid]
  · rename_i start len left rest hpass
    split at hstep
    · cases hstep
    · rename_i u hadd
      cases hstep
      -- The new entry refers to the buffer of the datagram, which the reader has its own reference
      -- to.
      refine (h.addmbuf hfits hadd).goto ?_ rfl rfl
      have hid : rest.id = tbuf.id := (innerPass_same hpass).1
      show [rest.id] = [tbuf.id]
      rw [hid]
  · rename_i start len rest recurse hpass
    split at hstep
    · cases hstep
    · rename_i u hadd
      cases hstep
      refine (h.addmbuf hfits hadd).goto ?_ rfl rfl
      have hid : rest.id = tbuf.id := (innerPass_same hpass).1
      show [rest.id] = [tbuf.id]
      rw [hid]

/-- The `assert` of `mbuf_reset` only looks. -/
theorem assertUnref_ok {t : Egress} {b : Nat} (h : assertUnref s b = .ok t) : t = s := by
  rw [assertUnref] at h
  split at h
  · cases h
    rfl
  · cases h

/-- The state with its own control point, for the lemmas that are stated about a state at a given
one. -/
theorem with_reader {r : TfsReader} (hr : s.reader = r) : s = { s with reader := r } := by
  rw [← hr]

/-- Every step of `read_tfs_pkts` keeps the invariant. -/
theorem readTfsStep_conserves {cfg : Config} {timer : Option Timespec}
    {input : Option (List UInt8 × Bool)} {t : Egress} (h : Conserves maxiov s)
    (hfits : RefcntFits maxiov) (hstep : readTfsStep cfg maxiov s timer input = .ok t) :
    Conserves maxiov t := by
  cases hr : s.reader with
  | start =>
      rw [with_reader hr] at h hstep
      dsimp only [readTfsStep] at hstep
      split at hstep
      · cases hstep
      · rename_i b freeq hpop
        cases hstep
        exact h.popFreeq hpop rfl rfl rfl rfl
  | startRef b =>
      rw [with_reader hr] at h hstep
      cases hstep
      -- The `atomic_fetch_add` before the loop: no count is near the end of a `uint32_t`.
      exact h.takeRef (refcnt_fetchAdd (h.refcnt_lt hfits b)) rfl rfl rfl rfl rfl
  | top b m =>
      rw [with_reader hr] at h hstep
      dsimp only [readTfsStep] at hstep
      split at hstep
      · cases hstep
      · cases hstep
        exact h.dropRef hfits
  | reset b m =>
      rw [with_reader hr] at h hstep
      dsimp only [readTfsStep] at hstep
      split at hstep
      · cases hstep
      · rename_i u hu
        cases hstep
        rw [assertUnref_ok hu]
        exact h.goto rfl rfl rfl
  | pop m =>
      rw [with_reader hr] at h hstep
      dsimp only [readTfsStep] at hstep
      split at hstep
      · cases hstep
      · rename_i b freeq hpop
        cases hstep
        exact h.popFreeq hpop rfl rfl rfl rfl
  | store b m =>
      rw [with_reader hr] at h hstep
      cases hstep
      -- A buffer in hand has no references, so that the store of a one adds one.
      have hzero : s.refcnt b = 0 := h.counted.rc_of_held (by simp [Egress.held, TfsReader.hands])
      exact h.takeRef (refcnt_storeOne hzero) rfl rfl rfl rfl rfl
  | recv b m =>
      rw [with_reader hr] at h hstep
      exact h.recv hstep
  | deref tbuf k =>
      rw [with_reader hr] at h hstep
      exact h.readerDeref hfits hstep
  | derefReset tbuf k b =>
      rw [with_reader hr] at h hstep
      dsimp only [readTfsStep] at hstep
      split at hstep
      · cases hstep
      · rename_i u hu
        cases hstep
        rw [assertUnref_ok hu]
        exact h.goto rfl rfl rfl
  | derefPush tbuf k b =>
      rw [with_reader hr] at h hstep
      dsimp only [readTfsStep] at hstep
      split at hstep
      · cases hstep
      · rename_i freeq hpush
        cases hstep
        exact h.readerPush hpush
  | inner tbuf offset m =>
      rw [with_reader hr] at h hstep
      cases m with
      | none =>
          dsimp only [readTfsStep] at hstep
          split at hstep
          · cases hstep
          · rename_i k iovfreeq hpop
            cases hstep
            exact h.popIovfreeq hpop
      | some k => exact h.inner hfits hstep
  | push tbuf k recurse =>
      rw [with_reader hr] at h hstep
      dsimp only [readTfsStep] at hstep
      split at hstep
      · cases hstep
      · rename_i outq hpush
        have hpushed := h.pushOutq hpush
        split at hstep
        · exact Conserves.enter (s := { s with outq := outq }) hpushed rfl rfl rfl hstep
        · cases hstep
          exact hpushed

/-! ### The steps of `write_intf_pkts` -/

/-- The same for the writer. -/
theorem with_writer {w : IntfWriter} (hw : s.writer = w) : s = { s with writer := w } := by
  rw [← hw]

/-- The writer goes on with the same buffers and the same miov in its hands. -/
theorem Conserves.gotoWriter {w w' : IntfWriter} (h : Conserves maxiov { s with writer := w })
    (hhands : w'.hands = w.hands) (hmiovs : w'.miovs = w.miovs)
    (hcleared : ∀ k, w' = .push k → (s.miov k).iov = []) :
    Conserves maxiov { s with writer := w' } where
  counted := by
    refine h.counted.congr (fun b => ?_) fun _ => rfl
    show (s.reader.hands ++ w'.hands).count b = (s.reader.hands ++ w.hands).count b
    rw [hhands]
  miovs := by
    show (s.iovfreeq.queue ++ (s.outq.queue ++ (s.reader.miovs ++ w'.miovs))).Perm _
    rw [hmiovs]
    exact h.miovs
  room := h.room
  clean := h.clean
  cleared := hcleared
  freeq := h.freeq
  iovfreeq := h.iovfreeq
  outq := h.outq

/-- A miov is popped from the outq by the writer. -/
theorem Conserves.popOutq {k : Nat} {outq : Queue Nat}
    (h : Conserves maxiov { s with writer := .pop }) (hpop : miovqPop s.outq = some (k, outq)) :
    Conserves maxiov { s with outq := outq, writer := .write k } where
  counted := h.counted
  miovs := by
    refine List.Perm.trans ?_ h.miovs
    rw [List.perm_iff_count]
    intro c
    simp only [Egress.miovs, (Queue.pop_eq_some.mp hpop).1, IntfWriter.miovs, List.count_append,
      List.count_cons, List.count_nil]
    omega
  room := h.room
  clean := h.clean
  cleared := by
    intro j hj
    cases hj
  freeq := h.freeq
  iovfreeq := h.iovfreeq
  outq := by
    show outq.size = OUTERQSZ
    rw [(Queue.pop_eq_some.mp hpop).2]
    exact h.outq

/-- The writer pushes its miov on `iovfreeq`. -/
theorem Conserves.pushIovfreeq {k : Nat} {iovfreeq : Queue Nat}
    (h : Conserves maxiov { s with writer := .push k })
    (hpush : miovqPush s.iovfreeq k = some iovfreeq) :
    Conserves maxiov { s with iovfreeq := iovfreeq, writer := .pop } where
  counted := h.counted
  miovs := by
    refine List.Perm.trans ?_ h.miovs
    rw [List.perm_iff_count]
    intro c
    simp only [Egress.miovs, (Queue.push_eq_some.mp hpush).1, IntfWriter.miovs,
      List.count_append, List.count_cons, List.count_nil]
    omega
  room := h.room
  -- The miov that is pushed was cleared by the walk before.
  clean := by
    intro j hj
    have hq : iovfreeq.queue = k :: s.iovfreeq.queue := (Queue.push_eq_some.mp hpush).1
    have hmem : j ∈ k :: s.iovfreeq.queue := by
      rw [← hq]
      exact hj
    rcases List.mem_cons.mp hmem with rfl | hmem
    · exact h.cleared j rfl
    · exact h.clean j hmem
  cleared := by
    intro j hj
    cases hj
  freeq := h.freeq
  iovfreeq := by
    show iovfreeq.size = OUTERQSZ
    rw [(Queue.push_eq_some.mp hpush).2]
    exact h.iovfreeq
  outq := h.outq

/-- A buffer without references is pushed on `freeq` by the writer. -/
theorem Conserves.writerPush {k b : Nat} {freeq : Queue Nat}
    (h : Conserves maxiov { s with writer := .derefPush k b })
    (hpush : mqueuePush s.freeq b = some freeq) :
    Conserves maxiov { s with freeq := freeq, writer := .deref k } where
  counted := by
    refine h.counted.put (b := b) (fun c => ?_) (fun c => ?_)
    · exact count_concat_single b c s.reader.hands
    · show freeq.queue.count c = s.freeq.queue.count c + single b c
      rw [(Queue.push_eq_some.mp hpush).1, count_cons_single]
  miovs := h.miovs
  room := h.room
  clean := h.clean
  cleared := by
    intro j hj
    cases hj
  freeq := by
    show freeq.size = OUTERQSZ
    rw [(Queue.push_eq_some.mp hpush).2]
    exact h.freeq
  iovfreeq := h.iovfreeq
  outq := h.outq

/-- One turn of `miov_reset` in the writer. -/
theorem Conserves.writerDeref {k : Nat} {t : Egress}
    (h : Conserves maxiov { s with writer := .deref k }) (hfits : RefcntFits maxiov)
    (hstep : (match miovResetTurn { s with writer := .deref k } k with
      | (s, .ended) => .ok { s with writer := .push k }
      | (s, .dropped) => .ok { s with writer := .deref k }
      | (s, .last b) => .ok { s with writer := .derefReset k b }) = (.ok t : Except Stop Egress)) :
    Conserves maxiov t := by
  obtain ⟨hk, hfree⟩ := h.of_writer (List.mem_singleton.mpr rfl)
  have hclean := h.clean_setMiov hfree
  cases hiov : (s.miov k).iov with
  -- The walk has ended: the miov is clear and about to be pushed.
  | nil =>
      simp only [miovResetTurn, hiov] at hstep
      cases hstep
      refine ⟨h.counted.congr (fun _ => rfl) (fun c => ?_), h.miovs, niov_clear h.room k,
        hclean _, ?_, h.freeq, h.iovfreeq, h.outq⟩
      · show s.reader.own.count c + (s.setMiov k (miovReset (s.miov k))).entries c =
          s.reader.own.count c + s.entries c
        rw [entries_clear hk hiov]
      · intro j hj
        cases hj
        show (Function.update s.miov k _ k).iov = []
        rw [Function.update_self]
        rfl
  | cons v rest =>
      obtain ⟨hrefcnt, hentries, hroom⟩ := h.turn hfits hk hiov
      have hrefs : ∀ c, Egress.refs { s with writer := .deref k } c =
          s.reader.own.count c + (((s.setMiov k { s.miov k with iov := rest }).fetchSub
            v.mbuf).entries c) + single v.mbuf c := by
        intro c
        show s.reader.own.count c + s.entries c = _
        have hc : s.entries c = ((s.setMiov k { s.miov k with iov := rest }).fetchSub
            v.mbuf).entries c + single v.mbuf c := hentries c
        omega
      simp only [miovResetTurn, hiov] at hstep
      -- As in the reader, with the buffer in the hands of the writer.
      by_cases hlast : s.refcnt v.mbuf = 1
      · simp only [hlast, if_true] at hstep
        cases hstep
        refine ⟨h.counted.dropLast hlast hrefcnt hrefs (fun c => ?_), h.miovs, hroom, hclean _,
          fun j hj => (by cases hj), h.freeq, h.iovfreeq, h.outq⟩
        exact count_concat_single v.mbuf c s.reader.hands
      · simp only [hlast, if_false] at hstep
        cases hstep
        exact ⟨h.counted.drop hlast hrefcnt hrefs, h.miovs, hroom, hclean _,
          fun j hj => (by cases hj), h.freeq, h.iovfreeq, h.outq⟩

/-- Every step of `write_intf_pkts` keeps the invariant. -/
theorem writeIntfStep_conserves {t : Egress} (h : Conserves maxiov s) (hfits : RefcntFits maxiov)
    (hstep : writeIntfStep s = .ok t) : Conserves maxiov t := by
  cases hw : s.writer with
  | pop =>
      rw [with_writer hw] at h hstep
      dsimp only [writeIntfStep] at hstep
      split at hstep
      · cases hstep
      · rename_i k outq hpop
        cases hstep
        exact h.popOutq hpop
  | write k =>
      rw [with_writer hw] at h hstep
      cases hstep
      -- `writev` only reads.
      exact h.gotoWriter rfl rfl fun j hj => (by cases hj)
  | deref k =>
      rw [with_writer hw] at h hstep
      exact h.writerDeref hfits hstep
  | derefReset k b =>
      rw [with_writer hw] at h hstep
      dsimp only [writeIntfStep] at hstep
      split at hstep
      · cases hstep
      · rename_i u hu
        cases hstep
        rw [assertUnref_ok hu]
        exact h.gotoWriter rfl rfl fun j hj => (by cases hj)
  | derefPush k b =>
      rw [with_writer hw] at h hstep
      dsimp only [writeIntfStep] at hstep
      split at hstep
      · cases hstep
      · rename_i freeq hpush
        cases hstep
        exact h.writerPush hpush
  | push k =>
      rw [with_writer hw] at h hstep
      dsimp only [writeIntfStep] at hstep
      split at hstep
      · cases hstep
      · rename_i iovfreeq hpush
        cases hstep
        exact h.pushIovfreeq hpush

end Step

end Proofs

end Iptfs
