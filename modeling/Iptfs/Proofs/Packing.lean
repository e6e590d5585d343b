import Iptfs.Model.WriteTfs
import Mathlib.Tactic.Common

/-!
# `Iptfs.Proofs.Packing`: what one run of the packing loop produces

`Packed room ms iov freed leftover` says how the loop fills `room` bytes with the packets
`ms`, in order: `iov` are the entries, `freed` the packets that go to `efreem`, and
`leftover` the one that is cut. It has one constructor for each way the loop goes on or
ends. `packLoop_fills` shows that every run of the loop is of this form, whatever its
`mqueue_trypop` calls answer, and that `packFuel` passes are enough. Everything else about
a datagram is then an induction on `Packed`: `iovlen_packed` for its length,
`length_iovBytes_packed` for the bytes that `sendmsg` reads.
-/

set_option autoImplicit false

namespace Iptfs.Proofs

/-- The ways the packing loop fills `room` bytes. A packet in hand with 6 bytes or less of
room is dropped (`lost`): the loop pads and forgets it. -/
inductive Packed : Nat → List Mbuf → List Iov → List Mbuf → Option Mbuf → Prop
  | exact : Packed 0 [] [] [] none
  | pad (room : Nat) (hpos : 0 < room) : Packed room [] [.pad room] [] none
  | lost (room : Nat) (m : Mbuf) (hpos : 0 < room) (hroom : room ≤ 6) :
      Packed room [m] [.pad room] [] none
  | part (room : Nat) (m : Mbuf) (hroom : 6 < room) (hlen : room < m.len) :
      Packed room [m] [.mbuf m room] [] (some { m with data := m.data.drop room })
  | full (room : Nat) (m : Mbuf) (ms : List Mbuf) (iov : List Iov) (freed : List Mbuf)
      (leftover : Option Mbuf) (hroom : 6 < room) (hlen : m.len ≤ room)
      (hms : ms ≠ [] → 6 < room - m.len) (h : Packed (room - m.len) ms iov freed leftover) :
      Packed room (m :: ms) (.mbuf m m.len :: iov) (m :: freed) leftover

/-- What a pass that packs all of `m` does: the loop goes on as `l'` with the answers
`as`, and holds a packet again only when more than 6 bytes of room are left. -/
structure FullPass (l : Wtfs) (m : Mbuf) (answers : List (Option Mbuf)) (l' : Wtfs)
    (as : List (Option Mbuf)) : Prop where
  mtu : l'.mtu = l.mtu - m.len
  leftover : l'.leftover = l.leftover
  iov : l'.iov = l.iov ++ [.mbuf m m.len]
  efreem : l'.efreem = l.efreem ++ [m]
  taken : l'.taken = l.taken ++ l'.m.toList
  room : l'.m ≠ none → 6 < l.mtu - m.len
  answer : ∀ p, l'.m = some p → some p ∈ answers
  rest : ∀ o ∈ as, o ∈ answers
  fuel : as.length + l'.m.toList.length ≤ answers.length

/-- A pass with a packet that fits. -/
theorem packLoop_full (cfg : Config) (fuel : Nat) {l : Wtfs} {m : Mbuf}
    (answers : List (Option Mbuf)) (hm : l.m = some m) (hroom : 6 < l.mtu)
    (hlen : m.len ≤ l.mtu) :
    ∃ l' as, packLoop cfg (fuel + 1) l answers = packLoop cfg fuel l' as ∧
      FullPass l m answers l' as := by
  have h0 : ¬ l.mtu = 0 := by omega
  have h6 : ¬ l.mtu ≤ 6 := by omega
  have hle : ¬ m.len > l.mtu := by omega
  by_cases hpop : l.mtu - m.len > 6 ∧ cfg.oneonly = false
  · -- There is space: the pass ends in `mqueue_trypop`.
    refine ⟨_, answers.tail, by
      simp only [packLoop, h0, if_false, packOnce, hm, h6, hle, if_pos hpop]; rfl, ?_⟩
    cases answers with
    | nil => constructor <;> simp [Wtfs.take]
    | cons o as => constructor <;> grind [Wtfs.take, Option.toList]
  · refine ⟨_, answers, by
      simp only [packLoop, h0, if_false, packOnce, hm, h6, hle, if_neg hpop]; rfl, ?_⟩
    constructor <;> simp

/-- A pass that ends the loop. -/
theorem packLoop_last (cfg : Config) (fuel : Nat) {l l' : Wtfs} (answers : List (Option Mbuf))
    (hmtu : 0 < l.mtu) (hl' : l'.mtu = 0) (honce : packOnce cfg l = (l', none)) :
    packLoop cfg (fuel + 1) l answers = l' := by
  have h0 : ¬ l.mtu = 0 := by omega
  simp only [packLoop, h0, if_false, honce]
  cases fuel <;> simp [packLoop, hl']

/-- `l'` is how the loop ends from `l`: it has filled the room with the packet in hand and
the packets `ts` that the queue gave. -/
def Fills (l : Wtfs) (answers : List (Option Mbuf)) (l' : Wtfs) : Prop :=
  ∃ ts iov freed leftover,
    Packed l.mtu (l.m.toList ++ ts) iov freed leftover ∧
    (∀ m ∈ ts, some m ∈ answers) ∧ (l.m = none → ts = []) ∧
    l'.iov = l.iov ++ iov ∧ l'.efreem = l.efreem ++ freed ∧ l'.leftover = leftover ∧
    l'.taken = l.taken ++ ts

/-- A loop that ends without asking the queue. -/
theorem Fills.of_packed {l l' : Wtfs} {answers : List (Option Mbuf)} (iov : List Iov)
    (h : Packed l.mtu l.m.toList iov [] l'.leftover) (hiov : l'.iov = l.iov ++ iov)
    (hfreed : l'.efreem = l.efreem) (htaken : l'.taken = l.taken) : Fills l answers l' :=
  ⟨[], iov, [], l'.leftover, by simpa using h, by simp, by simp, hiov, by simp [hfreed], rfl,
    by simp [htaken]⟩

/-- A pass that packs all of `m`, and then the rest of the loop. -/
theorem Fills.of_full {l l' l'' : Wtfs} {m : Mbuf} {answers as : List (Option Mbuf)}
    (hm : l.m = some m) (hroom : 6 < l.mtu) (hlen : m.len ≤ l.mtu)
    (hpass : FullPass l m answers l' as) (h : Fills l' as l'') : Fills l answers l'' := by
  obtain ⟨ts, iov, freed, leftover, hpacked, hts, hidle, hiov, hfreed, hleft, htaken⟩ := h
  rw [hpass.mtu] at hpacked
  have hms : l'.m.toList ++ ts ≠ [] → 6 < l.mtu - m.len := by
    intro hne
    apply hpass.room
    intro hnone
    exact hne (by simp [hnone, hidle hnone])
  refine ⟨l'.m.toList ++ ts, .mbuf m m.len :: iov, m :: freed, leftover, ?_, ?_, ?_, ?_, ?_,
    hleft, ?_⟩
  · rw [hm]
    exact .full _ m _ _ _ _ hroom hlen hms hpacked
  · intro p hp
    rcases List.mem_append.mp hp with h | h
    · exact hpass.answer p (by simpa using h)
    · exact hpass.rest _ (hts p h)
  · intro hnone
    rw [hm] at hnone
    exact nomatch hnone
  · rw [hiov, hpass.iov, List.append_assoc]
    rfl
  · rw [hfreed, hpass.efreem, List.append_assoc]
    rfl
  · rw [htaken, hpass.taken, List.append_assoc]

/-- The loop, for any answers of its `mqueue_trypop` calls. Induction on the fuel: a pass
that packs a whole packet uses up the packet in hand, or room, or an answer. -/
theorem packLoop_fills (cfg : Config) :
    ∀ (fuel : Nat) (l : Wtfs) (answers : List (Option Mbuf)),
      packFuel l answers ≤ fuel → l.leftover = none → (l.mtu = 0 → l.m = none) →
      Fills l answers (packLoop cfg fuel l answers) := by
  intro fuel
  induction fuel with
  | zero =>
      intro l answers hfuel hleft hm
      have hmtu : l.mtu = 0 := by simp only [packFuel] at hfuel; omega
      refine Fills.of_packed [] ?_ (by simp [packLoop]) rfl rfl
      simp only [packLoop, hmtu, hm hmtu, hleft, Option.toList_none]
      exact .exact
  | succ fuel ih =>
      intro l answers hfuel hleft hm
      rcases Nat.eq_zero_or_pos l.mtu with hmtu | hpos
      · have hloop : packLoop cfg (fuel + 1) l answers = l := by simp [packLoop, hmtu]
        rw [hloop]
        refine Fills.of_packed [] ?_ (by simp) rfl rfl
        rw [hmtu, hm hmtu, hleft]
        exact .exact
      · cases hlm : l.m with
        | none =>
            rw [packLoop_last cfg fuel answers hpos rfl
              (show packOnce cfg l = ({ l with iov := l.iov ++ [.pad l.mtu], mtu := 0 }, none) by
                simp [packOnce, hlm])]
            refine Fills.of_packed [.pad l.mtu] ?_ rfl rfl rfl
            simp only [hlm, hleft, Option.toList_none]
            exact .pad _ hpos
        | some m =>
            rcases Nat.lt_or_ge 6 l.mtu with hroom | hroom
            · rcases Nat.lt_or_ge l.mtu m.len with hlen | hlen
              · have h6 : ¬ l.mtu ≤ 6 := by omega
                rw [packLoop_last cfg fuel answers hpos rfl
                  (show packOnce cfg l = ({ l with
                      iov := l.iov ++ [.mbuf m l.mtu]
                      leftover := some { m with data := m.data.drop l.mtu }
                      m := none
                      mtu := 0 }, none) by simp [packOnce, hlm, h6, hlen])]
                refine Fills.of_packed [.mbuf m l.mtu] ?_ rfl rfl rfl
                simp only [hlm, Option.toList_some]
                exact .part _ m hroom hlen
              · obtain ⟨l', as, hloop, hpass⟩ := packLoop_full cfg fuel answers hlm hroom hlen
                rw [hloop]
                refine Fills.of_full hlm hroom hlen hpass (ih l' as ?_ ?_ ?_)
                · have hf := hpass.fuel
                  have hmtu := hpass.mtu
                  simp only [packFuel, hlm, Option.toList_some, List.length_singleton] at hfuel ⊢
                  omega
                · rw [hpass.leftover, hleft]
                · intro h0
                  by_contra hne
                  have h1 := hpass.room hne
                  have h2 := hpass.mtu
                  omega
            · rw [packLoop_last cfg fuel answers hpos rfl
                (show packOnce cfg l = ({ l with iov := l.iov ++ [.pad l.mtu], mtu := 0 }, none) by
                  simp [packOnce, hlm, hroom])]
              refine Fills.of_packed [.pad l.mtu] ?_ rfl rfl rfl
              simp only [hlm, hleft, Option.toList_some]
              exact .lost _ m hpos hroom

/-! ### The datagram -/

@[simp] theorem iovlen_nil : iovlen [] = 0 := rfl

/-- The length of a gather list is the sum over its entries. -/
@[simp] theorem iovlen_cons (v : Iov) (iov : List Iov) :
    iovlen (v :: iov) = v.len + iovlen iov := by
  simp [iovlen]

@[simp] theorem iovBytes_nil : iovBytes [] = [] := rfl

/-- The bytes of a gather list are those of its entries, one after the other. -/
@[simp] theorem iovBytes_cons (v : Iov) (iov : List Iov) :
    iovBytes (v :: iov) = v.bytes ++ iovBytes iov := by
  simp [iovBytes]

/-- The header is two words. -/
@[simp] theorem length_wtfsHdr (seq offset : Nat) : (wtfsHdr seq offset).length = 8 := rfl

/-- The entries total the room, so the `errx` on `iovlen` is never reached. -/
theorem iovlen_packed {room : Nat} {ms : List Mbuf} {iov : List Iov} {freed : List Mbuf}
    {leftover : Option Mbuf} (h : Packed room ms iov freed leftover) : iovlen iov = room := by
  induction h with
  | exact => rfl
  | pad room _ => simp [Iov.len]
  | lost room m _ _ => simp [Iov.len]
  | part room m _ _ => simp [Iov.len]
  | full room m ms iov freed leftover _ hlen _ _ ih =>
      rw [iovlen_cons, ih, Iov.len]
      omega

/-- `sendmsg` reads as many bytes as the entries total: no entry is longer than what it
points at. -/
theorem length_iovBytes_packed {room : Nat} {ms : List Mbuf} {iov : List Iov}
    {freed : List Mbuf} {leftover : Option Mbuf} (h : Packed room ms iov freed leftover)
    (hroom : room ≤ MAXBUF) : (iovBytes iov).length = room := by
  induction h with
  | exact => rfl
  | pad room _ => simp [Iov.bytes, hroom]
  | lost room m _ _ => simp [Iov.bytes, hroom]
  | part room m _ hlen =>
      simp only [Mbuf.len] at hlen
      simp [Iov.bytes]
      omega
  | full room m ms iov freed leftover _ hlen _ _ ih =>
      rw [iovBytes_cons, List.length_append, ih (by omega)]
      simp only [Mbuf.len] at hlen
      simp [Iov.bytes, Mbuf.len]
      omega

/-- `write_tfs_pkt` from the header on: the room after the header is packed with the
packet in hand and what the queue gives, and the call succeeds. -/
theorem writeTfsData_spec (cfg : Config) (hmtu : 8 < cfg.tfsmtu) (seq offset : Nat) (m : Mbuf)
    (taken : List Mbuf) (answers : List (Option Mbuf)) (sent : Bool) :
    ∃ ts iov freed leftover,
      Packed (cfg.tfsmtu - 8) (m :: ts) iov freed leftover ∧
      (∀ p ∈ ts, some p ∈ answers) ∧
      writeTfsData cfg seq offset (wtfsEnter cfg m taken) answers sent = .ok {
        datagram := some (wtfsHdr seq offset ++ iovBytes iov)
        iov := .hdr (wtfsHdr seq offset) :: iov
        seq := (seq + 1) % 2 ^ 32
        leftover := if sent then leftover else none
        freed := if sent then freed else freed ++ leftover.toList
        taken := taken ++ ts } := by
  have hpos : (wtfsEnter cfg m taken).mtu = 0 → (wtfsEnter cfg m taken).m = none := by
    intro h0
    simp only [wtfsEnter] at h0
    omega
  obtain ⟨ts, iov, freed, leftover, hpacked, hts, -, hiov, hfreed, hleft, htaken⟩ :=
    packLoop_fills cfg _ (wtfsEnter cfg m taken) answers (Nat.le_refl _) rfl hpos
  refine ⟨ts, iov, freed, leftover, hpacked, hts, ?_⟩
  have hlen : iovlen (.hdr (wtfsHdr seq offset) :: iov) = cfg.tfsmtu := by
    rw [iovlen_cons, iovlen_packed hpacked]
    simp only [Iov.len, length_wtfsHdr, wtfsEnter]
    omega
  simp only [wtfsEnter, List.nil_append] at hiov hfreed hleft htaken
  simp only [writeTfsData, wtfsEnter, hiov, hfreed, hleft, htaken, hlen, ne_eq, not_true_eq_false,
    if_false, iovBytes_cons, Iov.bytes]

end Iptfs.Proofs
