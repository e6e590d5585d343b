import Iptfs.Lib.Run
import Iptfs.Proofs.Packing

/-!
# `Iptfs.Proofs.FlowConfidentiality`: the datagrams do not show the traffic

The purpose of the program is that the tunnel's datagrams do not depend on the inner
packets. `Sender.observed` is what an observer who cannot read the inner packets sees: for
each call of `write_tfs_pkt` whether there was a datagram, how long it was, and its first
6 bytes, which are the sequence number and the version and ACK bits.

`writeTfsPkt_observed` is the step: outside single-only mode, and whatever the leftover
is, the queue answers and the send returns, a call emits one datagram of `g_tfsmtu` bytes
whose first 6 bytes depend on the sequence number alone. `writeTfsPkts_observed_eq` is the
two-run statement.
-/

set_option autoImplicit false

namespace Iptfs.Proofs

open Iptfs.Lib

/-- What shows of a datagram: its length and its first 6 bytes. -/
def visible (datagram : List UInt8) : Nat × List UInt8 := (datagram.length, datagram.take 6)

/-- What an observer sees of a run of the sender, one entry for each call. -/
def observed (s : Sender) : List (Option (Nat × List UInt8)) :=
  s.calls.map fun c => c.2.datagram.map visible

/-- What an observer sees of the call with the sequence number `seq`. -/
def expected (cfg : Config) (seq : Nat) : Option (Nat × List UInt8) :=
  some (cfg.tfsmtu, put32 seq ++ [0, 0])

/-- The empty datagram shows its size and the sequence number. -/
theorem visible_writeEmptyTfsPkt (seq mtu : Nat) (h8 : 8 < mtu) (hmax : mtu ≤ MAXBUF) :
    visible (writeEmptyTfsPkt seq mtu).1 = (mtu, put32 seq ++ [0, 0]) := by
  have hlen : (put32 seq ++ List.replicate (MAXBUF - 4) 0).length = MAXBUF := by
    rw [List.length_append, length_put32, List.length_replicate]
    rfl
  simp only [visible, writeEmptyTfsPkt, List.length_take, hlen, List.take_take]
  rw [show min 6 mtu = 4 + 2 by omega, show min mtu MAXBUF = mtu by omega, List.take_add]
  rfl

/-- A datagram with inner packets shows its size and the sequence number. -/
theorem visible_wtfsHdr (seq offset : Nat) (payload : List UInt8) :
    visible (wtfsHdr seq offset ++ payload) = (8 + payload.length, put32 seq ++ [0, 0]) := by
  simp only [visible, List.length_append, length_wtfsHdr]
  rfl

/-- One call, whatever the leftover, the answers of the queue and the result of the send:
it succeeds, and shows the same. -/
theorem writeTfsPkt_observed (cfg : Config) (h8 : 8 < cfg.tfsmtu) (hmax : cfg.tfsmtu ≤ MAXBUF)
    (hone : cfg.oneonly = false) (seq : Nat) (leftover : Option Mbuf)
    (answers : List (Option Mbuf)) (sent : Bool) :
    ∃ out, writeTfsPkt cfg seq leftover answers sent = .ok out ∧
      out.datagram.map visible = expected cfg seq ∧ out.seq = (seq + 1) % 2 ^ 32 := by
  have hdata : ∀ (offset : Nat) (m : Mbuf) (taken : List Mbuf) (answers : List (Option Mbuf)),
      ∃ out, writeTfsData cfg seq offset (wtfsEnter cfg m taken) answers sent = .ok out ∧
        out.datagram.map visible = expected cfg seq ∧ out.seq = (seq + 1) % 2 ^ 32 := by
    intro offset m taken answers
    obtain ⟨ts, iov, freed, lo, hpacked, -, hout⟩ :=
      writeTfsData_spec cfg h8 seq offset m taken answers sent
    refine ⟨_, hout, ?_, rfl⟩
    have hlen := length_iovBytes_packed hpacked (by omega)
    rw [Option.map_some, visible_wtfsHdr, hlen, expected,
      show 8 + (cfg.tfsmtu - 8) = cfg.tfsmtu by omega]
  cases leftover with
  | some m => exact hdata _ m [] answers
  | none =>
      cases hans : answers.headD none with
      | some m =>
          obtain ⟨out, hout, h⟩ := hdata 0 m [m] answers.tail
          exact ⟨out, by simp only [writeTfsPkt, hans, hout], h⟩
      | none =>
          have hempty : ∃ out, writeTfsPkt cfg seq none answers sent = .ok out ∧
              out.datagram = some (writeEmptyTfsPkt seq cfg.tfsmtu).1 ∧
              out.seq = (seq + 1) % 2 ^ 32 := by
            simp only [writeTfsPkt, hans, hone, Bool.false_eq_true, if_false]
            exact ⟨_, rfl, rfl, rfl⟩
          obtain ⟨out, hout, hdat, hseq⟩ := hempty
          refine ⟨out, hout, ?_, hseq⟩
          rw [hdat, Option.map_some, visible_writeEmptyTfsPkt seq cfg.tfsmtu h8 hmax, expected]

/-- A run of calls succeeds, and what it shows depends on the first sequence number and
the number of calls alone. -/
theorem run_writeTfsPkts_observed (cfg : Config) (h8 : 8 < cfg.tfsmtu)
    (hmax : cfg.tfsmtu ≤ MAXBUF) (hone : cfg.oneonly = false) :
    ∀ (calls : List WriteCall) (s : Sender), s.seq < 2 ^ 32 →
      ∃ t, run (writeTfsPktsStep cfg) s calls = .ok t ∧
        observed t = observed s ++
          (List.range calls.length).map fun i => expected cfg ((s.seq + i) % 2 ^ 32) := by
  intro calls
  induction calls with
  | nil => intro s _; exact ⟨s, rfl, by simp⟩
  | cons c calls ih =>
      intro s hseq
      obtain ⟨out, hout, hvis, hnext⟩ :=
        writeTfsPkt_observed cfg h8 hmax hone s.seq s.leftover c.answers c.sent
      have hstep : writeTfsPktsStep cfg s c
          = .ok ⟨out.seq, out.leftover, s.calls ++ [(c, out)]⟩ := by
        simp only [writeTfsPktsStep, hout]
      obtain ⟨t, ht, hobs⟩ := ih ⟨out.seq, out.leftover, s.calls ++ [(c, out)]⟩
        (by rw [hnext]; exact Nat.mod_lt _ (by decide))
      refine ⟨t, by rw [run_cons_ok calls hstep, ht], ?_⟩
      have htail : ∀ i, expected cfg ((out.seq + i) % 2 ^ 32)
          = expected cfg ((s.seq + (i + 1)) % 2 ^ 32) := by
        intro i
        rw [hnext, Nat.mod_add_mod, Nat.add_assoc, Nat.add_comm 1 i]
      rw [hobs, List.length_cons, List.range_succ_eq_map, List.map_cons, List.map_map,
        Nat.add_zero, Nat.mod_eq_of_lt hseq]
      simp only [htail, observed, List.map_append, List.map_cons, List.map_nil, hvis,
        List.append_assoc, List.cons_append, List.nil_append, Function.comp_def]

/-- Two runs of as many calls from the same sequence number look the same, whatever the
inner packets, the moments they reach the queue, the leftovers and the results of the
sends: each call emits one datagram of `g_tfsmtu` bytes, and the `i`-th ones carry the
same sequence number and the same zero version and ACK bits. No call reaches the `errx`. -/
theorem writeTfsPkts_observed_eq (cfg : Config) (h8 : 8 < cfg.tfsmtu)
    (hmax : cfg.tfsmtu ≤ MAXBUF) (hone : cfg.oneonly = false) (seq : Nat) (hseq : seq < 2 ^ 32)
    (leftover leftover' : Option Mbuf) (calls calls' : List WriteCall)
    (hcalls : calls.length = calls'.length) :
    ∃ t t', run (writeTfsPktsStep cfg) ⟨seq, leftover, []⟩ calls = .ok t ∧
      run (writeTfsPktsStep cfg) ⟨seq, leftover', []⟩ calls' = .ok t' ∧
      observed t = observed t' ∧
      observed t = (List.range calls.length).map fun i =>
        some (cfg.tfsmtu, put32 ((seq + i) % 2 ^ 32) ++ [0, 0]) := by
  obtain ⟨t, ht, hobs⟩ :=
    run_writeTfsPkts_observed cfg h8 hmax hone calls ⟨seq, leftover, []⟩ hseq
  obtain ⟨t', ht', hobs'⟩ :=
    run_writeTfsPkts_observed cfg h8 hmax hone calls' ⟨seq, leftover', []⟩ hseq
  refine ⟨t, t', ht, ht', ?_, ?_⟩
  · rw [hobs, hobs', hcalls]
    rfl
  · rw [hobs]
    rfl

/-- A run with an empty queue and one with a packet of 3000 bytes, whose second send
fails. -/
theorem writeTfsPkts_observed_eq_two :
    ∃ t t',
      run (writeTfsPktsStep ⟨1500, false, false⟩) ⟨1, none, []⟩ [⟨[], true⟩, ⟨[none], true⟩]
        = .ok t ∧
      run (writeTfsPktsStep ⟨1500, false, false⟩) ⟨1, none, []⟩
        [⟨[some ⟨0, List.replicate 3000 0x45, 0⟩], true⟩, ⟨[], false⟩] = .ok t' ∧
      observed t = observed t' ∧
      observed t = [some (1500, [0, 0, 0, 1, 0, 0]), some (1500, [0, 0, 0, 2, 0, 0])] :=
  writeTfsPkts_observed_eq ⟨1500, false, false⟩ (by decide) (by decide) rfl 1 (by decide)
    none none [⟨[], true⟩, ⟨[none], true⟩]
    [⟨[some ⟨0, List.replicate 3000 0x45, 0⟩], true⟩, ⟨[], false⟩] rfl

end Iptfs.Proofs
