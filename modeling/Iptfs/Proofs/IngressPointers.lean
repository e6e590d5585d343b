import Iptfs.Model.Pools
import Iptfs.Proofs.IngressBuffers

/-!
# `Iptfs.Proofs.IngressPointers`: the pointers of the mbufs of the ingress

`Iptfs.Model.Ingress` keeps the bytes of an mbuf, and `Iptfs.Model.Pools` its two pointers.
`Pointed` says that they agree: in each mbuf that is anywhere in the ingress, the bytes are as
many as `MBUF_LEN` says, and in those that nothing was read into since their reset, both
pointers are where the reset left them. No thread of the ingress takes a reference, so all the
reference counts are zero as well.

An mbuf is in one place (`Ingress.places`), so what a thread writes to the one in its hands
leaves the others alone. `ingressStep_pointed` is the step lemma.
-/

set_option autoImplicit false

namespace Iptfs

/-- The mbufs in the hands of `read_intf_pkts`. -/
def IntfReader.mbufs : IntfReader → List Mbuf
  | .pop => []
  | .read m => [m]
  | .pushFree m => [m]
  | .pushOut m => [m]

/-- The one of them that nothing has been read into. -/
def IntfReader.unread : IntfReader → List Mbuf
  | .read m => [m]
  | _ => []

/-- The mbufs in the variables of the packing loop. -/
def Wtfs.mbufs (l : Wtfs) : List Mbuf := l.m.toList ++ (l.efreem ++ l.leftover.toList)

/-- The mbufs in the hands of `write_tfs_pkt`. -/
def TfsWriter.mbufs : TfsWriter → List Mbuf
  | .call leftover => leftover.toList
  | .pack _ l => l.mbufs
  | .trypop _ l _ => l.mbufs
  | .send _ l => l.mbufs
  | .free leftover freem => freem ++ leftover.toList

namespace Ingress

/-- The mbufs, by where they are. -/
def mbufs (s : Ingress) : List Mbuf :=
  s.freeq.queue ++ (s.outq.queue ++ (s.reader.mbufs ++ s.writer.mbufs))

/-- The mbufs without bytes, by where they are. -/
def unread (s : Ingress) : List Mbuf := s.freeq.queue ++ s.reader.unread

/-- A buffer without bytes is on the free queue, or the reader has it for its `read`. -/
theorem mem_of_mem_unread {s : Ingress} {m : Mbuf} (h : m ∈ s.unread) :
    m ∈ s.freeq.queue ∨ m ∈ s.reader.mbufs := by
  rw [unread, List.mem_append] at h
  refine h.imp_right fun hreader => ?_
  cases hr : s.reader with
  | read a =>
      rw [hr] at hreader
      exact hreader
  | pop | pushFree a | pushOut a =>
      rw [hr] at hreader
      cases hreader

/-- The buffers with their contents are those of `places`, in the same order. -/
theorem map_id_mbufs (s : Ingress) : s.mbufs.map Mbuf.id = s.places := by
  have hreader : s.reader.mbufs.map Mbuf.id = s.reader.hands := by
    cases s.reader <;> rfl
  have hwriter : s.writer.mbufs.map Mbuf.id = s.writer.hands := by
    cases s.writer <;> rfl
  rw [mbufs, places, List.map_append, List.map_append, List.map_append, hreader, hwriter]

end Ingress

namespace Proofs

open Iptfs.Lib

/-- The mbuf `m` has no references, and as many bytes as lie between its pointers. -/
def Agrees (ptrs : Nat → Ptrs) (m : Mbuf) : Prop :=
  m.refcnt = 0 ∧ (ptrs m.id).fin = (ptrs m.id).start + m.len

/-- The pointers agree with the mbufs of the ingress. -/
structure Pointed (s : Ingress) (ptrs : Nat → Ptrs) : Prop where
  agrees : ∀ m ∈ s.mbufs, Agrees ptrs m
  unread : ∀ m ∈ s.unread, ptrs m.id = .reset

section Step

variable {s t : Ingress} {ptrs : Nat → Ptrs}

/-- Mbufs are moved about, and some may be lost. -/
theorem Pointed.move (h : Pointed s ptrs) (hmbufs : ∀ m ∈ t.mbufs, m ∈ s.mbufs)
    (hunread : ∀ m ∈ t.unread, m ∈ s.unread) : Pointed t ptrs where
  agrees := fun m hm => h.agrees m (hmbufs m hm)
  unread := fun m hm => h.unread m (hunread m hm)

/-- The writer moves mbufs about in its own variables. -/
theorem Pointed.moveWriter {w : TfsWriter} {seq : Nat} (h : Pointed s ptrs)
    (hmbufs : ∀ m ∈ w.mbufs, m ∈ s.writer.mbufs) :
    Pointed { s with writer := w, seq := seq } ptrs := by
  apply h.move
  · intro m hm
    have hw := hmbufs m
    simp only [Ingress.mbufs, List.mem_append] at hm ⊢
    tauto
  · intro m hm
    exact hm

/-- The pointers of the mbuf `a` are written, and the others stay where they were. -/
theorem Pointed.write {a : Nat} {p : Ptrs} (h : Pointed s ptrs)
    (hmbufs : ∀ m ∈ t.mbufs,
      m ∈ s.mbufs ∧ m.id ≠ a ∨ m.id = a ∧ m.refcnt = 0 ∧ p.fin = p.start + m.len)
    (hunread : ∀ m ∈ t.unread, m ∈ s.unread ∧ m.id ≠ a ∨ m.id = a ∧ p = .reset) :
    Pointed t (Function.update ptrs a p) where
  agrees := by
    intro m hm
    rcases hmbufs m hm with ⟨hold, hne⟩ | ⟨hid, href, hlen⟩
    · rw [Agrees, Function.update_of_ne hne]
      exact h.agrees m hold
    · rw [Agrees, hid, Function.update_self]
      exact ⟨href, hlen⟩
  unread := by
    intro m hm
    rcases hunread m hm with ⟨hold, hne⟩ | ⟨hid, hreset⟩
    · rw [Function.update_of_ne hne]
      exact h.unread m hold
    · rw [hid, Function.update_self, hreset]

/-- An mbuf is in one place, so the others have other addresses. -/
theorem ne_of_perm (hnodup : s.places.Nodup) {a m : Mbuf} {rest : List Mbuf}
    (hperm : s.mbufs.Perm (a :: rest)) (hm : m ∈ rest) : m.id ≠ a.id := by
  rw [← s.map_id_mbufs] at hnodup
  have hcons := (hperm.map Mbuf.id).nodup_iff.mp hnodup
  rw [List.map_cons, List.nodup_cons] at hcons
  intro hid
  apply hcons.1
  rw [← hid]
  exact List.mem_map_of_mem hm

/-- The mbufs that are not in the reader's hands. -/
theorem ne_of_reader (hnodup : s.places.Nodup) {a m : Mbuf} (ha : s.reader.mbufs = [a])
    (hm : m ∈ s.freeq.queue ++ (s.outq.queue ++ s.writer.mbufs)) : m.id ≠ a.id := by
  refine ne_of_perm hnodup ?_ hm
  rw [List.perm_iff_count, Ingress.mbufs, ha]
  intro c
  simp only [List.count_append, List.count_cons, List.count_nil]
  omega

/-- The mbufs other than one in the writer's hands. -/
theorem ne_of_writer (hnodup : s.places.Nodup) {a m : Mbuf} (rest : List Mbuf)
    (ha : s.writer.mbufs.Perm (a :: rest))
    (hm : m ∈ s.freeq.queue ++ (s.outq.queue ++ (s.reader.mbufs ++ rest))) : m.id ≠ a.id := by
  refine ne_of_perm hnodup ?_ hm
  have hcount := List.perm_iff_count.mp ha
  rw [List.perm_iff_count, Ingress.mbufs]
  intro c
  simp only [List.count_append, List.count_cons, hcount c]
  omega

/-- An mbuf is reset, and pushed on the free queue. -/
theorem Pointed.pushReset {a : Mbuf} (h : Pointed s ptrs) (rest : List Mbuf)
    (href : a.refcnt = 0) (hne : ∀ m ∈ rest, m ∈ s.mbufs ∧ m.id ≠ a.id)
    (hunread : ∀ m ∈ t.unread, m = { a with data := [] } ∨ m ∈ s.unread ∧ m ∈ rest)
    (hmbufs : ∀ m ∈ t.mbufs, m = { a with data := [] } ∨ m ∈ rest) :
    Pointed t (Function.update ptrs a.id .reset) := by
  apply h.write
  · intro m hm
    rcases hmbufs m hm with rfl | hrest
    · exact .inr ⟨rfl, href, rfl⟩
    · exact .inl (hne m hrest)
  · intro m hm
    rcases hunread m hm with rfl | ⟨hold, hrest⟩
    · exact .inr ⟨rfl, rfl⟩
    · exact .inl ⟨hold, (hne m hrest).2⟩

/-- `read` fills the mbuf in the reader's hands, or loses it. -/
theorem readStep_pointed {result : Option (List UInt8)} {a : Mbuf} (h : Pointed s ptrs)
    (hnodup : s.places.Nodup) (hreader : s.reader = .read a)
    (hstep : readIntfStep s result = .ok t) : Pointed t (readIntfPtrs s result ptrs) := by
  rw [readIntfStep] at hstep
  rw [readIntfPtrs]
  simp only [hreader] at hstep ⊢
  have hne := fun m => ne_of_reader (m := m) hnodup (by rw [hreader]; rfl : _ = [a])
  have ha : Agrees ptrs a := h.agrees a (by simp [Ingress.mbufs, hreader, IntfReader.mbufs])
  cases result with
  | none =>
      cases hstep
      apply h.move
      · intro m hm
        simpa only [Ingress.mbufs, hreader, IntfReader.mbufs] using hm
      · intro m hm
        simp only [Ingress.unread, IntfReader.unread, List.append_nil] at hm ⊢
        exact List.mem_append_left _ hm
  | some bytes =>
      dsimp only at hstep ⊢
      split at hstep
      · -- A zero read. The mbuf is lost.
        rename_i hzero
        cases hstep
        rw [if_pos hzero]
        apply h.move
        · intro m hm
          simp only [Ingress.mbufs, IntfReader.mbufs, List.nil_append, List.mem_append] at hm ⊢
          tauto
        · intro m hm
          simp only [Ingress.unread, IntfReader.unread, List.append_nil] at hm ⊢
          exact List.mem_append_left _ hm
      · -- `m->end` follows the bytes.
        rename_i hdata
        cases hstep
        rw [if_neg hdata]
        apply h.write
        · intro m hm
          simp only [Ingress.mbufs, IntfReader.mbufs, List.mem_append, List.mem_cons,
            List.not_mem_nil, or_false] at hm hne ⊢
          rcases hm with hm | hm | rfl | hm
          · exact .inl ⟨.inl hm, hne m (.inl hm)⟩
          · exact .inl ⟨.inr (.inl hm), hne m (.inr (.inl hm))⟩
          · exact .inr ⟨rfl, ha.1, rfl⟩
          · exact .inl ⟨.inr (.inr (.inr hm)), hne m (.inr (.inr hm))⟩
        · intro m hm
          simp only [Ingress.unread, IntfReader.unread, List.append_nil] at hm ⊢
          exact .inl ⟨List.mem_append_left _ hm, hne m (List.mem_append_left _ hm)⟩

/-- A step of `read_intf_pkts`. -/
theorem readIntfStep_pointed {result : Option (List UInt8)} (h : Pointed s ptrs)
    (hnodup : s.places.Nodup) (hstep : readIntfStep s result = .ok t) :
    Pointed t (readIntfPtrs s result ptrs) := by
  cases hreader : s.reader with
  | pop =>
      simp only [readIntfStep, hreader] at hstep
      simp only [readIntfPtrs, hreader]
      cases hpop : mqueuePop s.freeq with
      | none =>
          simp only [hpop] at hstep
          cases hstep
      | some p =>
          obtain ⟨a, freeq⟩ := p
          simp only [hpop] at hstep
          cases hstep
          have hq : s.freeq.queue = a :: freeq.queue := (Queue.pop_eq_some.mp hpop).1
          apply h.move
          · intro m hm
            simp only [Ingress.mbufs, hreader, hq, IntfReader.mbufs, List.mem_append,
              List.mem_cons, List.not_mem_nil] at hm ⊢
            tauto
          · intro m hm
            simp only [Ingress.unread, hreader, hq, IntfReader.unread, List.mem_append,
              List.mem_cons, List.not_mem_nil] at hm ⊢
            tauto
  | read a => exact readStep_pointed h hnodup hreader hstep
  | pushFree a =>
      simp only [readIntfStep, hreader] at hstep
      simp only [readIntfPtrs, hreader]
      cases hpush : mqueuePushReset s.freeq a with
      | error e =>
          simp only [hpush] at hstep
          cases hstep
      | ok freeq =>
          simp only [hpush] at hstep
          cases hstep
          have hq := mqueuePushReset_ok hpush
          have ha : Agrees ptrs a := h.agrees a (by simp [Ingress.mbufs, hreader, IntfReader.mbufs])
          have hne := fun m => ne_of_reader (m := m) hnodup (by rw [hreader]; rfl : _ = [a])
          apply h.pushReset (s.freeq.queue ++ (s.outq.queue ++ s.writer.mbufs)) ha.1
          · intro m hm
            refine ⟨?_, hne m hm⟩
            simp only [Ingress.mbufs, List.mem_append] at hm ⊢
            tauto
          · intro m hm
            simp only [Ingress.unread, hq, IntfReader.unread, List.append_nil, List.mem_cons,
              List.mem_append] at hm ⊢
            tauto
          · intro m hm
            simpa only [Ingress.mbufs, hq, IntfReader.mbufs, List.nil_append, List.cons_append,
              List.mem_cons] using hm
  | pushOut a =>
      simp only [readIntfStep, hreader] at hstep
      simp only [readIntfPtrs, hreader]
      cases hpush : mqueuePush s.outq a with
      | none =>
          simp only [hpush] at hstep
          cases hstep
      | some outq =>
          simp only [hpush] at hstep
          cases hstep
          have hq : outq.queue = a :: s.outq.queue := (Queue.push_eq_some.mp hpush).1
          apply h.move
          · intro m hm
            simp only [Ingress.mbufs, hreader, hq, IntfReader.mbufs, List.mem_append,
              List.mem_cons, List.not_mem_nil] at hm ⊢
            tauto
          · intro m hm
            simpa only [Ingress.unread, hreader, IntfReader.unread] using hm

/-- A pass of the packing loop: the mbufs stay, and where one is cut, its `start` moves over
what was packed. -/
theorem packOnce_pointed {cfg : Config} {offset : Nat} {l l' : Wtfs} {asks : Option Nat}
    {w : TfsWriter} (h : Pointed s ptrs) (hnodup : s.places.Nodup)
    (hwriter : s.writer = .pack offset l) (hleft : l.leftover = none)
    (hpass : packOnce cfg l = (l', asks)) (hw : w.mbufs = l'.mbufs) :
    Pointed { s with writer := w } (packPtrs l ptrs) := by
  have hmbufs : s.writer.mbufs = l.m.toList ++ l.efreem := by
    rw [hwriter, TfsWriter.mbufs, Wtfs.mbufs, hleft, Option.toList_none, List.append_nil]
  rw [packOnce] at hpass
  rw [packPtrs]
  cases hm : l.m with
  | none =>
      rw [hm] at hpass
      cases hpass
      apply h.moveWriter
      intro m hmem
      rw [hw] at hmem
      simpa only [hwriter, TfsWriter.mbufs, Wtfs.mbufs, hm] using hmem
  | some a =>
      simp only [hm] at hpass ⊢
      split at hpass
      · -- No room. The packet stays in `m`.
        rename_i h6
        cases hpass
        rw [if_neg (by omega)]
        apply h.moveWriter
        intro m hmem
        rw [hw] at hmem
        simpa only [hwriter, TfsWriter.mbufs, Wtfs.mbufs, hm] using hmem
      · rename_i h6
        rw [hm, Option.toList_some] at hmbufs
        have ha : Agrees ptrs a := h.agrees a (by simp [Ingress.mbufs, hmbufs])
        split at hpass
        · -- The packet is cut.
          rename_i hbig
          cases hpass
          rw [if_pos ⟨by omega, hbig⟩]
          have hne := fun m => ne_of_writer hnodup (m := m) l.efreem
            (by rw [hmbufs]; exact List.Perm.refl _)
          have hlen : ({ a with data := a.data.drop l.mtu } : Mbuf).len = a.len - l.mtu :=
            List.length_drop
          apply h.write
          · intro m hmem
            simp only [Ingress.mbufs, hw, hmbufs, Wtfs.mbufs, Option.toList_none,
              Option.toList_some, List.nil_append, List.mem_append, List.mem_cons,
              List.not_mem_nil, or_false] at hmem hne ⊢
            rcases hmem with hmem | hmem | hmem | hmem | rfl
            · exact .inl ⟨.inl hmem, hne m (.inl hmem)⟩
            · exact .inl ⟨.inr (.inl hmem), hne m (.inr (.inl hmem))⟩
            · exact .inl ⟨.inr (.inr (.inl hmem)), hne m (.inr (.inr (.inl hmem)))⟩
            · exact .inl ⟨.inr (.inr (.inr (.inr hmem))), hne m (.inr (.inr (.inr hmem)))⟩
            · refine .inr ⟨rfl, ha.1, ?_⟩
              have hfin := ha.2
              rw [Ptrs.start_advance, Ptrs.fin_advance, hlen]
              omega
          · intro m hmem
            refine .inl ⟨hmem, hne m ?_⟩
            have hold := Ingress.mem_of_mem_unread (s := s) hmem
            simp only [List.mem_append]
            tauto
        · -- The packet is packed.
          rename_i hfits
          cases hpass
          rw [if_neg (by omega)]
          apply h.moveWriter
          intro m hmem
          simp only [hw, hmbufs, Wtfs.mbufs, hleft, Option.toList_none, List.nil_append,
            List.append_nil, List.mem_append, List.mem_cons, List.not_mem_nil, or_false] at hmem ⊢
          tauto

/-- The start of `write_tfs_pkt`, with the leftover or with a packet from the outq. -/
theorem callStep_pointed {cfg : Config} {sent : Bool} {leftover : Option Mbuf} (h : Pointed s ptrs)
    (hwriter : s.writer = .call leftover) (hstep : writeTfsStep cfg s sent = .ok t) :
    Pointed t (writeTfsPtrs s ptrs) := by
  rw [writeTfsStep] at hstep
  rw [writeTfsPtrs]
  simp only [hwriter] at hstep ⊢
  split at hstep
  · cases hstep
  · cases leftover with
    | some a =>
        cases hstep
        apply h.moveWriter
        intro m hm
        simpa only [hwriter, TfsWriter.mbufs, Wtfs.mbufs, wtfsEnter, Option.toList_none,
          List.append_nil] using hm
    | none =>
        dsimp only at hstep
        split at hstep
        · -- A packet from the outq.
          rename_i a outq hpop
          cases hstep
          have hq := mqueueTrypop_queue hpop
          apply h.move
          · intro m hm
            simp only [Ingress.mbufs, hwriter, hq, TfsWriter.mbufs, Wtfs.mbufs, wtfsEnter,
              Option.toList_some, Option.toList_none, List.append_nil, List.mem_append,
              List.mem_cons, List.not_mem_nil, or_false] at hm ⊢
            tauto
          · intro m hm
            exact hm
        · cases hstep
          exact h.move (fun m hm => by simpa only [Ingress.mbufs, hwriter] using hm)
            fun m hm => hm

/-- The test of the packing loop, and a pass of it. -/
theorem packStep_pointed {cfg : Config} {sent : Bool} {offset : Nat} {l : Wtfs}
    (h : Pointed s ptrs) (hnodup : s.places.Nodup) (hheld : Packing cfg l)
    (hwriter : s.writer = .pack offset l) (hstep : writeTfsStep cfg s sent = .ok t) :
    Pointed t (writeTfsPtrs s ptrs) := by
  rw [writeTfsStep] at hstep
  rw [writeTfsPtrs]
  simp only [hwriter] at hstep ⊢
  split at hstep
  · -- The loop has ended.
    rename_i hmtu
    cases hstep
    have hsame : packPtrs l ptrs = ptrs := by
      rw [packPtrs]
      cases l.m with
      | none => rfl
      | some a => exact if_neg (by omega)
    rw [hsame]
    apply h.moveWriter
    rw [hwriter]
    exact fun m hm => hm
  · rename_i hmtu
    have hleft := hheld.leftover hmtu
    split at hstep
    · rename_i l' hpass
      cases hstep
      exact packOnce_pointed h hnodup hwriter hleft hpass rfl
    · rename_i l' maxsize hpass
      cases hstep
      exact packOnce_pointed h hnodup hwriter hleft hpass rfl

/-- The loop after `sendmsg`, in which the packed mbufs are freed. -/
theorem freeStep_pointed {cfg : Config} {sent : Bool} {leftover : Option Mbuf} {freem : List Mbuf}
    (h : Pointed s ptrs) (hnodup : s.places.Nodup) (hwriter : s.writer = .free leftover freem)
    (hstep : writeTfsStep cfg s sent = .ok t) : Pointed t (writeTfsPtrs s ptrs) := by
  rw [writeTfsStep] at hstep
  rw [writeTfsPtrs]
  cases freem with
  | nil =>
      simp only [hwriter] at hstep ⊢
      cases hstep
      apply h.moveWriter
      rw [hwriter]
      exact fun m hm => hm
  | cons a freem =>
      simp only [hwriter] at hstep ⊢
      cases hpush : mqueuePushReset s.freeq a with
      | error e =>
          simp only [hpush] at hstep
          cases hstep
      | ok freeq =>
          simp only [hpush] at hstep
          cases hstep
          have hq := mqueuePushReset_ok hpush
          have ha : Agrees ptrs a :=
            h.agrees a (by simp [Ingress.mbufs, hwriter, TfsWriter.mbufs])
          have hne := fun m => ne_of_writer hnodup (m := m) (freem ++ leftover.toList)
            (by rw [hwriter, TfsWriter.mbufs]; exact List.Perm.refl _)
          -- The mbuf that is freed gets its pointers back, and no other mbuf has its address.
          apply h.pushReset (s.freeq.queue ++ (s.outq.queue ++ (s.reader.mbufs ++
            (freem ++ leftover.toList)))) ha.1
          · intro m hm
            refine ⟨?_, hne m hm⟩
            simp only [Ingress.mbufs, hwriter, TfsWriter.mbufs, List.cons_append,
              List.mem_append, List.mem_cons] at hm ⊢
            tauto
          · intro m hm
            have hold := Ingress.mem_of_mem_unread (s := s) (m := m)
            simp only [Ingress.unread, hq, List.cons_append, List.mem_append,
              List.mem_cons] at hm hold ⊢
            tauto
          · intro m hm
            simpa only [Ingress.mbufs, hq, TfsWriter.mbufs, List.cons_append,
              List.mem_cons] using hm

/-- A step of `write_tfs_pkts`, by where the thread is. -/
theorem writeTfsStep_pointed {cfg : Config} {sent : Bool} (h : Pointed s ptrs)
    (hnodup : s.places.Nodup) (hheld : Held cfg s.writer)
    (hstep : writeTfsStep cfg s sent = .ok t) : Pointed t (writeTfsPtrs s ptrs) := by
  cases hwriter : s.writer with
  | call leftover => exact callStep_pointed h hwriter hstep
  | pack offset l =>
      rw [hwriter] at hheld
      exact packStep_pointed h hnodup hheld hwriter hstep
  | free leftover freem => exact freeStep_pointed h hnodup hwriter hstep
  | trypop offset l maxsize =>
      simp only [writeTfsStep, hwriter] at hstep
      simp only [writeTfsPtrs, hwriter]
      obtain ⟨a, outq, hpop⟩ : ∃ m outq, mqueueTrypop Mbuf.len s.outq maxsize = (m, outq) :=
        ⟨_, _, rfl⟩
      rw [hpop] at hstep
      cases hstep
      -- The packet goes from the queue to the loop, with the pointers that `read` gave it.
      have hq := mqueueTrypop_queue hpop
      apply h.move
      · intro m hm
        simp only [Ingress.mbufs, hwriter, hq, TfsWriter.mbufs, Wtfs.mbufs, Wtfs.take,
          List.mem_append] at hm ⊢
        tauto
      · intro m hm
        exact hm
  | send offset l =>
      simp only [writeTfsStep, hwriter] at hstep
      simp only [writeTfsPtrs, hwriter]
      split at hstep
      · cases hstep
      · cases hstep
        -- No pointer is written where the datagram goes out.
        apply h.moveWriter
        intro m hm
        cases sent <;>
          simp only [hwriter, TfsWriter.mbufs, Wtfs.mbufs, if_true, Bool.false_eq_true, if_false,
            Option.toList_none, List.append_nil, List.mem_append] at hm ⊢ <;> tauto

/-- The ingress between two steps: its mbufs are in one place each, and the pointers agree with
them. -/
structure IngressPointed (cfg : Config) (s : Ingress) (ptrs : Nat → Ptrs) : Prop where
  held : Held cfg s.writer
  nodup : s.places.Nodup
  pointed : Pointed s ptrs

/-- Every step of either thread keeps this. -/
theorem ingressStep_pointed {cfg : Config} {e : IngressEvent} (h : IngressPointed cfg s ptrs)
    (hstep : ingressStep cfg s e = .ok t) : IngressPointed cfg t (ingressPtrs s ptrs e) := by
  obtain ⟨hheld, lost, hperm, -⟩ := (ingress_moves cfg).step_ok s e t h.held hstep
  refine ⟨hheld, ?_, ?_⟩
  · have hall := hperm.nodup_iff.mp h.nodup
    exact (List.nodup_append.mp hall).2.1
  · cases e with
    | reader result => exact readIntfStep_pointed h.pointed h.nodup hstep
    | writer sent => exact writeTfsStep_pointed h.pointed h.nodup h.held hstep

/-- Every mbuf of the ingress is empty, with its pointers behind the room for the header. -/
theorem ingressPointed_init (cfg : Config) : IngressPointed cfg .init fun _ => .reset where
  held := trivial
  nodup := places_init.nodup_iff.mpr List.nodup_range
  pointed := by
    refine ⟨?_, fun m _ => rfl⟩
    intro m hm
    have hfree : m ∈ (List.range INNERQSZ).reverse.map fun id => (⟨id, [], 0⟩ : Mbuf) := by
      simpa [Ingress.mbufs, Ingress.init, mqueueNewFreeq, Queue.empty, IntfReader.mbufs,
        TfsWriter.mbufs] using hm
    obtain ⟨id, -, rfl⟩ := List.mem_map.mp hfree
    exact ⟨rfl, rfl⟩

end Step

end Proofs

end Iptfs
