import Iptfs.Lib.Run
import Iptfs.Proofs.Packing
import Iptfs.Python.Write

/-!
# `Iptfs.Proofs.Python.Write`: both senders emit the same wire

The two packing loops keep the same variables (`Same`), pass by pass (`Same.packOnce`) and so
to their end (`Same.packLoop`). `writeTfsPacket_eq` is the step: where the send succeeds the Python
function does what the C function does, and where it fails the C function warns and goes on, and the
Python function raises `OSError`.

`sameWire_iff` is the main result, over runs of any length: the two runs are the same exactly
when every send succeeds.
-/

set_option autoImplicit false

namespace Iptfs.Py

/-- The options of a C sender with datagrams of `mtu` bytes. -/
def plain (mtu : Nat) : Config := ⟨mtu, false, false⟩

/-- What shows of one call of either sender: the room left at each `trypop`, the datagram,
the buffers that are freed, and the leftover. -/
structure Shown where
  asks : List Nat
  datagram : Option (List UInt8)
  freed : List Mbuf
  leftover : Option Mbuf
  deriving DecidableEq, Repr

/-- The sequence number and the leftover, which each call hands to the next. -/
abbrev Writer : Type := Nat × Option Mbuf

/-- One call of the C sender. -/
def shownC (mtu : Nat) (w : Writer) (c : WriteCall) : Iptfs.Res (Writer × Shown) :=
  match writeTfsPkt (plain mtu) w.1 w.2 c.answers c.sent with
  | .error e => .error e
  | .ok out =>
      .ok ((out.seq, out.leftover),
        ⟨writeTfsAsks (plain mtu) w.2 c.answers, out.datagram, out.freed, out.leftover⟩)

/-- One call of the Python sender. -/
def shownPy (mtu : Nat) (w : Writer) (c : WriteCall) : Res (Writer × Shown) :=
  match writeTfsPacket mtu w.1 w.2 c.answers c.sent with
  | .error e => .error e
  | .ok out => .ok ((out.seq, out.leftover), ⟨out.asks, out.datagram, out.freed, out.leftover⟩)

open Iptfs.Lib

/-- Both senders go through all of the calls, and show the same. -/
def SameWire (mtu seq : Nat) (leftover : Option Mbuf) (calls : List WriteCall) : Prop :=
  ∃ shown, outputs (shownC mtu) (seq, leftover) calls = .ok shown ∧
    outputs (shownPy mtu) (seq, leftover) calls = .ok shown

namespace Proofs

open Iptfs.Proofs (Packed)

/-! ### The bytes -/

/-- The C sender keeps the sequence number below `2 ^ 32`. -/
theorem put32_mod (n : Nat) : Iptfs.put32 (n % 2 ^ 32) = Iptfs.put32 n := by
  simp only [Iptfs.put32, List.cons.injEq, and_true, ← UInt8.toNat_inj, UInt8.toNat_ofNat',
    Nat.shiftRight_eq_div_pow]
  omega

/-- The C sender keeps the offset in 16 bits. -/
theorem put16_mod (n : Nat) : Iptfs.put16 (n % 2 ^ 16) = Iptfs.put16 n := by
  simp only [Iptfs.put16, List.cons.injEq, and_true, ← UInt8.toNat_inj, UInt8.toNat_ofNat',
    Nat.shiftRight_eq_div_pow]
  omega

/-- The header. -/
theorem hdr_eq (seq offset : Nat) :
    put32 seq ++ put16 0 ++ put16 offset = wtfsHdr (seq % 2 ^ 32) (offset % 2 ^ 16) := by
  rw [put32_eq, put16_eq, put16_eq, wtfsHdr, put32_mod, put16_mod, List.append_assoc]
  rfl

/-- The padding. -/
theorem iovEntry_pad {len : Nat} (h : 8 + len ≤ MAXBUF) :
    iovEntry (.pad len) = (Iov.pad len).bytes := by
  have hC : len ≤ Iptfs.MAXBUF := by
    unfold MAXBUF HDRSPACE at h
    unfold Iptfs.MAXBUF
    omega
  show ((List.replicate MAXBUF (0 : UInt8)).take (8 + len)).drop 8 =
    (List.replicate Iptfs.MAXBUF 0).take len
  rw [List.take_replicate, List.take_replicate, List.drop_replicate, Nat.min_eq_left h,
    Nat.min_eq_left hC, Nat.add_sub_cancel_left]

/-- The bytes of a datagram. Induction on how the loop filled it. -/
theorem iovBytes_packed {room : Nat} {ms : List Mbuf} {iov : List Iov} {freed : List Mbuf}
    {leftover : Option Mbuf} (h : Packed room ms iov freed leftover) (hroom : 8 + room ≤ MAXBUF) :
    iovBytes iov = Iptfs.iovBytes iov := by
  induction h with
  | exact => rfl
  | pad room _ => exact congrArg (· ++ []) (iovEntry_pad hroom)
  | lost room m _ _ => exact congrArg (· ++ []) (iovEntry_pad hroom)
  | part room m _ _ => rfl
  | full room m ms iov freed leftover _ _ _ _ ih =>
      have hrest := ih (by omega)
      show m.data.take m.len ++ iovBytes iov = m.data.take m.len ++ Iptfs.iovBytes iov
      rw [hrest]

/-- The empty datagram. -/
theorem emptyTunnelPacket_eq (seq : Nat) {mtu : Nat} (h : mtu ≤ 9000) :
    emptyTunnelPacket seq mtu = (writeEmptyTfsPkt (seq % 2 ^ 32) mtu).1 := by
  -- The two buffers are of different sizes, and the datagram fits in either.
  have hsize : ∀ size, mtu ≤ size + 4 →
      (Iptfs.put32 seq ++ List.replicate size (0 : UInt8)).take mtu =
        (Iptfs.put32 seq).take mtu ++ List.replicate (mtu - 4) 0 := by
    intro size hle
    rw [List.take_append, length_put32, List.take_replicate, Nat.min_eq_left (by omega)]
  unfold emptyTunnelPacket writeEmptyTfsPkt
  rw [put32_eq, put32_mod]
  dsimp only
  rw [hsize _ (by unfold MAXBUF HDRSPACE; omega), hsize _ (by unfold Iptfs.MAXBUF; omega)]

/-! ### The two loops -/

/-- The variables that both loops have. -/
structure Same (w : Wtp) (l : Wtfs) : Prop where
  mtu : w.mtu = l.mtu
  m : w.m = l.m
  iov : w.iov = l.iov
  freem : w.freem = l.efreem
  leftover : w.leftover = l.leftover
  taken : w.taken = l.taken

/-- One pass of each loop. -/
theorem Same.packOnce {w : Wtp} {l : Wtfs} (h : Same w l) (mtu : Nat) :
    Same (packOnce w).1 (Iptfs.packOnce (plain mtu) l).1 ∧
      (Py.packOnce w).2 = (Iptfs.packOnce (plain mtu) l).2.isSome ∧
      (Py.packOnce w).1.asks = w.asks := by
  rcases w with ⟨room, m, iov, freem, leftover, taken, asks⟩
  rcases l with ⟨room', m', iov', efreem, leftover', taken'⟩
  rcases h with ⟨rfl, rfl, rfl, rfl, rfl, rfl⟩
  cases m with
  | none =>
      -- Without a packet in hand the rest is padding, however much there is.
      have hpad : (if room ≤ 6 then (none : Option Mbuf) else none) = none := ite_self none
      simp only [Py.packOnce, Iptfs.packOnce, hpad]
      exact ⟨⟨rfl, rfl, rfl, rfl, rfl, rfl⟩, rfl, trivial⟩
  | some m =>
      by_cases hroom : room ≤ 6
      · simp only [Py.packOnce, Iptfs.packOnce, hroom, if_true]
        exact ⟨⟨rfl, rfl, rfl, rfl, rfl, rfl⟩, rfl, trivial⟩
      · by_cases hlen : m.len > room
        · simp only [Py.packOnce, Iptfs.packOnce, hroom, hlen, if_true, if_false]
          exact ⟨⟨rfl, rfl, rfl, rfl, rfl, rfl⟩, rfl, trivial⟩
        · simp only [Py.packOnce, Iptfs.packOnce, hroom, hlen, if_false, plain]
          refine ⟨⟨rfl, rfl, rfl, rfl, rfl, rfl⟩, ?_, trivial⟩
          by_cases hmore : room - m.len > 6 <;> simp [hmore]

/-- The same answer reaches both loops. -/
theorem Same.take {w : Wtp} {l : Wtfs} (h : Same w l) (m : Option Mbuf) :
    Same (w.take m) (l.take m) where
  mtu := h.mtu
  m := rfl
  iov := h.iov
  freem := h.freem
  leftover := h.leftover
  taken := congrArg (· ++ m.toList) h.taken

/-- Both loops to their end, with the same answers. Induction on the passes. -/
theorem Same.packLoop (mtu fuel : Nat) {w : Wtp} {l : Wtfs} (h : Same w l)
    (answers : List (Option Mbuf)) :
    Same (packLoop fuel w answers) (Iptfs.packLoop (plain mtu) fuel l answers) ∧
      (Py.packLoop fuel w answers).asks = w.asks ++ packAsks (plain mtu) fuel l answers := by
  induction fuel generalizing w l answers with
  | zero => exact ⟨h, (List.append_nil _).symm⟩
  | succ fuel ih =>
      unfold Py.packLoop Iptfs.packLoop packAsks
      rw [h.mtu]
      by_cases hend : l.mtu = 0
      · rw [if_pos hend, if_pos hend, if_pos hend]
        exact ⟨h, (List.append_nil _).symm⟩
      · rw [if_neg hend, if_neg hend, if_neg hend]
        have honce := h.packOnce mtu
        rcases hpy : Py.packOnce w with ⟨w', asks⟩
        rcases hc : Iptfs.packOnce (plain mtu) l with ⟨l', more⟩
        rw [hpy, hc] at honce
        rcases honce with ⟨hsame, hmore, hasks⟩
        cases more with
        | none =>
            cases hmore
            have hrest := ih hsame answers
            rw [hasks] at hrest
            exact hrest
        | some maxsize =>
            cases hmore
            have hrest := ih (hsame.take (answers.headD none)) answers.tail
            refine ⟨hrest.1, ?_⟩
            have htake : (w'.take (answers.headD none)).asks = w.asks ++ [l'.mtu] := by
              rw [← hasks, ← hsame.mtu]
              rfl
            rw [hrest.2, htake, List.append_assoc]
            rfl

/-! ### One call -/

/-- A packet that is cut has bytes left. -/
theorem leftover_packed {room : Nat} {ms : List Mbuf} {iov : List Iov} {freed : List Mbuf}
    {leftover : Option Mbuf} (h : Packed room ms iov freed leftover) :
    ∀ m ∈ leftover, 0 < m.len := by
  induction h with
  | exact => simp
  | pad => simp
  | lost => simp
  | part room m _ hlen =>
      intro p hp
      cases hp
      unfold Mbuf.len at hlen ⊢
      rw [List.length_drop]
      omega
  | full _ _ _ _ _ _ _ _ _ _ ih => exact ih

/-- Both loops end with the same variables, and have packed the same room. -/
theorem loops_end {mtu : Nat} (h8 : 8 < mtu) (m : Mbuf) (taken : List Mbuf) (asks : List Nat)
    (answers : List (Option Mbuf)) :
    ∃ ts iov freed leftover, Packed (mtu - 8) (m :: ts) iov freed leftover ∧
      (∃ room m',
        Iptfs.packLoop (plain mtu) (Iptfs.packFuel (wtfsEnter (plain mtu) m taken) answers)
          (wtfsEnter (plain mtu) m taken) answers =
        ⟨room, m', iov, freed, leftover, taken ++ ts⟩) ∧
      ∃ room m', packLoop (packFuel (wtpEnter mtu m taken asks) answers)
          (wtpEnter mtu m taken asks) answers =
        ⟨room, m', iov, freed, leftover, taken ++ ts,
          asks ++ packAsks (plain mtu) (Iptfs.packFuel (wtfsEnter (plain mtu) m taken) answers)
            (wtfsEnter (plain mtu) m taken) answers⟩ := by
  have hsame : Same (wtpEnter mtu m taken asks) (wtfsEnter (plain mtu) m taken) :=
    ⟨rfl, rfl, rfl, rfl, rfl, rfl⟩
  have hpos :
      (wtfsEnter (plain mtu) m taken).mtu = 0 → (wtfsEnter (plain mtu) m taken).m = none := by
    intro h0
    have hzero : mtu - 8 = 0 := h0
    omega
  have hfuel : packFuel (wtpEnter mtu m taken asks) answers =
      Iptfs.packFuel (wtfsEnter (plain mtu) m taken) answers := rfl
  have hloop := hsame.packLoop mtu (Iptfs.packFuel (wtfsEnter (plain mtu) m taken) answers) answers
  rcases Iptfs.Proofs.packLoop_fills (plain mtu) _ (wtfsEnter (plain mtu) m taken) answers
    (Nat.le_refl _) rfl hpos with
    ⟨ts, iov, freed, leftover, hpacked, -, -, hiov, hfreed, hleft, htaken⟩
  rw [hfuel]
  generalize Iptfs.packLoop (plain mtu) (Iptfs.packFuel (wtfsEnter (plain mtu) m taken) answers)
    (wtfsEnter (plain mtu) m taken) answers = l at *
  generalize packLoop (Iptfs.packFuel (wtfsEnter (plain mtu) m taken) answers)
    (wtpEnter mtu m taken asks) answers = w at *
  rcases hloop with ⟨⟨-, -, hwiov, hwfreem, hwleft, hwtaken⟩, hasks⟩
  rcases l with ⟨room, m', liov, efreem, lleft, ltaken⟩
  -- The variables of the Python loop are those of the C loop, so the two records are written
  -- with the same fields.
  rcases w with ⟨room', m'', wiov, freem, wleft, wtaken, wasks⟩
  simp only [wtfsEnter, List.nil_append] at hiov hfreed hleft htaken
  dsimp only [wtpEnter] at hwiov hwfreem hwleft hwtaken hasks
  subst hiov hfreed hleft htaken hwiov hwfreem hwleft hwtaken hasks
  exact ⟨ts, _, _, _, hpacked, ⟨room, m', rfl⟩, room', m'', rfl⟩

/-- The part of a call from the header on. Where the send succeeds, both functions send the same
bytes and keep the same packets. Where it fails, the C function frees what it cut off and returns,
and the Python function raises `OSError`. -/
theorem writeTfsData_eq {mtu : Nat} (h8 : 8 < mtu) (hmax : mtu ≤ 9000) (seq offset : Nat)
    (m : Mbuf) (taken : List Mbuf) (asks : List Nat) (answers : List (Option Mbuf))
    (sent : Bool) :
    ∃ out, Iptfs.writeTfsData (plain mtu) (seq % 2 ^ 32) (offset % 2 ^ 16)
        (wtfsEnter (plain mtu) m taken) answers sent = .ok out ∧
      out.seq = (seq + 1) % 2 ^ 32 ∧
      writeTfsData seq offset (wtpEnter mtu m taken asks) answers sent =
        if sent then
          .ok ⟨{ out with seq := seq + 1 },
            asks ++ packAsks (plain mtu) (Iptfs.packFuel (wtfsEnter (plain mtu) m taken) answers)
              (wtfsEnter (plain mtu) m taken) answers⟩
        else .error .os := by
  rcases loops_end h8 m taken asks answers with
    ⟨ts, iov, freed, leftover, hpacked, ⟨room, m', hC⟩, room', m'', hPy⟩
  have hlen : iovlen (.hdr (wtfsHdr (seq % 2 ^ 32) (offset % 2 ^ 16)) :: iov) = mtu := by
    rw [Iptfs.Proofs.iovlen_cons, Iptfs.Proofs.iovlen_packed hpacked]
    show 8 + (mtu - 8) = mtu
    omega
  have hbytes : iovBytes (.hdr (wtfsHdr (seq % 2 ^ 32) (offset % 2 ^ 16)) :: iov) =
      Iptfs.iovBytes (.hdr (wtfsHdr (seq % 2 ^ 32) (offset % 2 ^ 16)) :: iov) := by
    have hrest := iovBytes_packed hpacked (by unfold MAXBUF HDRSPACE; omega)
    show wtfsHdr _ _ ++ iovBytes iov = wtfsHdr _ _ ++ Iptfs.iovBytes iov
    rw [hrest]
  -- `assert leftover.len()` holds: what is cut off has a byte at least.
  have hsound : ¬ leftover.any (fun m => m.len = 0) = true := by
    cases leftover with
    | none => exact Bool.false_ne_true
    | some p =>
        have hpos := leftover_packed hpacked p rfl
        intro hany
        have hzero : p.len = 0 := of_decide_eq_true hany
        omega
  refine ⟨{
      datagram := some (Iptfs.iovBytes (.hdr (wtfsHdr (seq % 2 ^ 32) (offset % 2 ^ 16)) :: iov))
      iov := .hdr (wtfsHdr (seq % 2 ^ 32) (offset % 2 ^ 16)) :: iov
      seq := (seq % 2 ^ 32 + 1) % 2 ^ 32
      leftover := if sent then leftover else none
      freed := if sent then freed else freed ++ leftover.toList
      taken := taken ++ ts }, ?_, Nat.mod_add_mod seq _ 1, ?_⟩
  · unfold Iptfs.writeTfsData
    rw [hC]
    exact if_neg (not_not.mpr hlen)
  · unfold writeTfsData
    rw [hPy, hdr_eq]
    dsimp only
    cases sent with
    | false => rfl
    | true => rw [if_neg hsound, hbytes, if_pos rfl, if_pos rfl, if_pos rfl, if_pos rfl]

/-- One call. Where the send succeeds, the Python function does what the C function does. Where it
fails, it raises `OSError`. -/
theorem writeTfsPacket_eq {mtu : Nat} (h8 : 8 < mtu) (hmax : mtu ≤ 9000) (seq : Nat)
    (leftover : Option Mbuf) (c : WriteCall) :
    ∃ out, writeTfsPkt (plain mtu) (seq % 2 ^ 32) leftover c.answers c.sent = .ok out ∧
      out.seq = (seq + 1) % 2 ^ 32 ∧
      writeTfsPacket mtu seq leftover c.answers c.sent =
        if c.sent then
          .ok ⟨{ out with seq := seq + 1 }, writeTfsAsks (plain mtu) leftover c.answers⟩
        else .error .os := by
  cases leftover with
  | some m => exact writeTfsData_eq h8 hmax seq m.len m [] [] c.answers c.sent
  | none =>
      cases hans : c.answers.headD none with
      | some m =>
          rcases writeTfsData_eq h8 hmax seq 0 m [m] [mtu] c.answers.tail c.sent with
            ⟨out, hC, hseq, hPy⟩
          refine ⟨out, ?_, hseq, ?_⟩
          · unfold writeTfsPkt
            rw [hans]
            exact hC
          · unfold writeTfsPacket writeTfsAsks
            rw [hans]
            exact hPy
      | none =>
          -- Nothing to send: an empty datagram.
          refine ⟨⟨some (writeEmptyTfsPkt (seq % 2 ^ 32) mtu).1, [],
            (seq % 2 ^ 32 + 1) % 2 ^ 32, none, [], []⟩, ?_, Nat.mod_add_mod seq _ 1, ?_⟩
          · unfold writeTfsPkt
            rw [hans]
            rfl
          · unfold writeTfsPacket writeTfsAsks writeEmptyTunnelPacket
            rw [hans, ← emptyTunnelPacket_eq seq hmax]
            cases c.sent <;> rfl

/-- A call whose send succeeds, at both senders. -/
theorem shown_sent {mtu : Nat} (h8 : 8 < mtu) (hmax : mtu ≤ 9000) (seq : Nat)
    (leftover : Option Mbuf) {c : WriteCall} (hsent : c.sent = true) :
    ∃ leftover' shown,
      shownC mtu (seq % 2 ^ 32, leftover) c = .ok (((seq + 1) % 2 ^ 32, leftover'), shown) ∧
        shownPy mtu (seq, leftover) c = .ok ((seq + 1, leftover'), shown) := by
  obtain ⟨out, hC, hnext, hPy⟩ := writeTfsPacket_eq h8 hmax seq leftover c
  rw [if_pos hsent] at hPy
  refine ⟨out.leftover, ⟨writeTfsAsks (plain mtu) leftover c.answers, out.datagram, out.freed,
    out.leftover⟩, ?_, ?_⟩
  · unfold shownC
    dsimp only
    rw [hC, ← hnext]
  · unfold shownPy
    dsimp only
    rw [hPy]

/-- A call whose send fails ends the Python sender. -/
theorem shown_failed {mtu : Nat} (h8 : 8 < mtu) (hmax : mtu ≤ 9000) (seq : Nat)
    (leftover : Option Mbuf) {c : WriteCall} (hsent : ¬ c.sent = true) :
    shownPy mtu (seq, leftover) c = .error .os := by
  obtain ⟨out, -, -, hPy⟩ := writeTfsPacket_eq h8 hmax seq leftover c
  rw [if_neg hsent] at hPy
  unfold shownPy
  dsimp only
  rw [hPy]

/-! ### Runs -/

/-- Runs of the two senders. The Python sequence number runs on, and the C one is its
remainder. Induction on the calls. -/
theorem outputs_iff {mtu : Nat} (h8 : 8 < mtu) (hmax : mtu ≤ 9000) :
    ∀ (calls : List WriteCall) (seq : Nat) (leftover : Option Mbuf),
      (∃ shown, outputs (shownC mtu) (seq % 2 ^ 32, leftover) calls = .ok shown ∧
        outputs (shownPy mtu) (seq, leftover) calls = .ok shown) ↔
        ∀ c ∈ calls, c.sent = true := by
  intro calls
  induction calls with
  | nil =>
      intro seq leftover
      exact iff_of_true ⟨[], rfl, rfl⟩ (by simp)
  | cons c calls ih =>
      intro seq leftover
      rw [List.forall_mem_cons]
      by_cases hsent : c.sent = true
      · -- Both calls succeed. What remains is the rest of the run, from the same leftover.
        obtain ⟨leftover', shown, hC, hPy⟩ := shown_sent h8 hmax seq leftover hsent
        rw [← ih (seq + 1) leftover', and_iff_right hsent]
        constructor
        · rintro ⟨all, hallC, hallPy⟩
          obtain ⟨rest, hrestC, rfl⟩ := (outputs_cons_eq_ok hC).mp hallC
          obtain ⟨rest', hrestPy, heq⟩ := (outputs_cons_eq_ok hPy).mp hallPy
          cases heq
          exact ⟨rest, hrestC, hrestPy⟩
        · rintro ⟨rest, hrestC, hrestPy⟩
          exact ⟨_, (outputs_cons_eq_ok hC).mpr ⟨rest, hrestC, rfl⟩,
            (outputs_cons_eq_ok hPy).mpr ⟨rest, hrestPy, rfl⟩⟩
      · -- The Python sender is brought down here, whatever the C sender does.
        refine iff_of_false ?_ fun h => hsent h.1
        rintro ⟨shown, -, hshown⟩
        unfold outputs at hshown
        rw [shown_failed h8 hmax seq leftover hsent] at hshown
        cases hshown

/-- When the two senders are the same on the wire. Over any run, exactly when every send
succeeds: the C sender warns of a failed one and goes on, and the Python sender is ended by it. -/
theorem sameWire_iff (mtu : Nat) (h8 : 8 < mtu) (hmax : mtu ≤ 9000) (seq : Nat)
    (hseq : seq < 2 ^ 32) (leftover : Option Mbuf) (calls : List WriteCall) :
    SameWire mtu seq leftover calls ↔ ∀ c ∈ calls, c.sent = true := by
  have hall := outputs_iff h8 hmax calls seq leftover
  rw [Nat.mod_eq_of_lt hseq] at hall
  exact hall

/-- A packet of 20 bytes. -/
def somePacket : Mbuf := ⟨0, List.replicate 20 0x45, 0⟩

/-- A leftover, a packet that does not fit into the rest, its tail, and an empty datagram. The
sequence number wraps in the C sender. -/
theorem sameWire_three : SameWire 50 (2 ^ 32 - 2) (some somePacket)
    [⟨[some ⟨1, List.replicate 30 0x45, 0⟩], true⟩, ⟨[none], true⟩, ⟨[none], true⟩] :=
  (sameWire_iff 50 (by decide) (by decide) (2 ^ 32 - 2) (by decide) (some somePacket) _).mpr
    (by decide)

/-- A failed send at the default MTU. -/
theorem not_sameWire : ¬ ∀ (mtu : Nat), 8 < mtu → mtu ≤ 9000 → ∀ (seq : Nat), seq < 2 ^ 32 →
    ∀ (leftover : Option Mbuf) (calls : List WriteCall), SameWire mtu seq leftover calls := by
  intro h
  have hmtu : 8 < TUNMTU ∧ TUNMTU ≤ 9000 := by decide
  obtain ⟨shown, -, hshown⟩ :=
    h TUNMTU hmtu.1 hmtu.2 1 (by decide) none [⟨[some somePacket, none], false⟩]
  unfold outputs at hshown
  rw [shown_failed hmtu.1 hmtu.2 1 none Bool.false_ne_true] at hshown
  cases hshown

end Proofs

end Iptfs.Py
