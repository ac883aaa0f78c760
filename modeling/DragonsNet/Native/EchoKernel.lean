/- GID: DragonsNet/Native/EchoKernel
   source: lean/DN/Compiler/Kernels.lean, native/accept_policy.h
   digest: What the echo hosts share: the generated echo, the accept policy, and what an echoed
     connection is. -/

import DragonsNet.Lib.Cells
import Mathlib.Algebra.Group.Nat.Defs
import Mathlib.Data.List.Infix

set_option autoImplicit false

namespace DragonsNet.Native.EchoKernel

open Lib.Cells

/-- `copyLoop` from `i` on, with `n` octets left to copy. None is an access outside a buffer. -/
def copyLoop (src : List UInt8) : ℕ → ℕ → List UInt8 → Option (List UInt8)
  | 0, _, dst => some dst
  | n + 1, i, dst =>
    (src[i]?).bind fun b => (store dst i [b]).bind fun dst => copyLoop src n (i + 1) dst

def refusal : ℕ := 2 ^ 32 - 1

/-- `dn_echo`: what it returns, and the octets at `dst` after it. The lengths are words, refused
when they are negative as signed ones. -/
def dnEcho (src dst : List UInt8) (len cap : BitVec 64) : Option (ℕ × List UInt8) :=
  if len.msb then some (refusal, dst)
  else if cap.msb then some (refusal, dst)
  else if 4096 < cap.toNat then some (refusal, dst)
  else if cap.toNat < len.toNat then some (refusal, dst)
  else (copyLoop src len.toNat 0 dst).map fun dst => (len.toNat, dst)

private theorem copyLoop_eq (src dst : List UInt8) (n i : ℕ) (hsrc : i + n ≤ src.length)
    (hdst : i + n ≤ dst.length) :
    copyLoop src n i (src.take i ++ dst.drop i) =
      some (src.take (i + n) ++ dst.drop (i + n)) := by
  induction n generalizing i with
  | zero => rfl
  | succ n ih =>
    have hi : i < src.length := by omega
    have hlength : (src.take i).length = i := by
      rw [List.length_take]
      omega
    have hfits : [src[i]].length ≤ (dst.drop i).length := by
      rw [List.length_drop, List.length_singleton]
      omega
    have hstored := store_behind (src.take i) (dst.drop i) [src[i]] hfits
    rw [hlength, List.length_singleton, List.drop_drop, ← List.take_succ_eq_append_getElem hi]
      at hstored
    rw [copyLoop, List.getElem?_eq_getElem hi, Option.bind_some, hstored, Option.bind_some,
      ih (i + 1) (by omega) (by omega), Nat.add_right_comm, Nat.add_assoc]

theorem dnEcho_eq {src dst : List UInt8} {len cap : ℕ} (hcap : cap ≤ 4096) (hlen : len ≤ cap)
    (hsrc : len ≤ src.length) (hdst : len ≤ dst.length) :
    dnEcho src dst (BitVec.ofNat 64 len) (BitVec.ofNat 64 cap) =
      some (len, src.take len ++ dst.drop len) := by
  have htoNat : ∀ n ≤ 4096, (BitVec.ofNat 64 n).toNat = n := by
    intro n hn
    rw [BitVec.toNat_ofNat, Nat.mod_eq_of_lt (by omega)]
  have hmsb : ∀ n ≤ 4096, (BitVec.ofNat 64 n).msb = false := by
    intro n hn
    rw [BitVec.msb_eq_decide, htoNat n hn, decide_eq_false_iff_not]
    omega
  have hcopy := copyLoop_eq src dst len 0 (by omega) (by omega)
  rw [List.take_zero, List.drop_zero, List.nil_append, Nat.zero_add] at hcopy
  rw [dnEcho, hmsb len (by omega), hmsb cap hcap, htoNat cap hcap, htoNat len (by omega),
    if_neg Bool.false_ne_true, if_neg Bool.false_ne_true, if_neg (by omega), if_neg (by omega),
    hcopy, Option.map_some]

inductive AcceptAction where
  | retry
  | pause
  | fatal
  deriving DecidableEq, Repr

/-- `dn_accept_action`, with the numbers of the errors it names: EAGAIN, EINTR, ECONNABORTED,
EPERM, EPROTO, ENETDOWN, ENOPROTOOPT, EHOSTDOWN, ENONET, EHOSTUNREACH, ENETUNREACH, EOPNOTSUPP,
ETIMEDOUT and ECONNRESET; then EBADF, EINVAL, ENOTSOCK and EFAULT. -/
def dnAcceptAction (code : ℕ) : AcceptAction :=
  if code ∈ [11, 4, 103, 1, 71, 100, 92, 112, 64, 113, 101, 95, 110, 104] then .retry
  else if code ∈ [9, 22, 88, 14] then .fatal
  else .pause

/-- The octets the host took from a connection's socket, and those its socket took from the
host. -/
structure Talk where
  received : List UInt8
  delivered : List UInt8
  deriving DecidableEq, Repr

def Talk.new : Talk := ⟨[], []⟩

def Talk.hear (t : Talk) (data : List UInt8) : Talk := { t with received := t.received ++ data }

def Talk.say (t : Talk) (data : List UInt8) : Talk := { t with delivered := t.delivered ++ data }

/-- A connection is echoed: what went out is a beginning of what came in, and no more than a
buffer of it is still to go. -/
def Talk.Echoed (capacity : ℕ) (t : Talk) : Prop :=
  ∃ rest, t.received = t.delivered ++ rest ∧ rest.length ≤ capacity

/-- What went over the sockets, by descriptor: the connections that had the number, the latest
first. -/
abbrev Talks := ℕ → List Talk

/-- Something goes over the socket that has the descriptor. -/
def Talks.pass (talks : Talks) (fd : Option ℕ) (f : Talk → Talk) : Option Talks :=
  match fd with
  | none => none
  | some fd =>
    match talks fd with
    | [] => none
    | t :: earlier => some (Function.update talks fd (f t :: earlier))

theorem Talks.of_pass {talks talks' : Talks} {fd : Option ℕ} {f : Talk → Talk}
    (h : talks.pass fd f = some talks') : ∃ x t earlier, fd = some x ∧ talks x = t :: earlier ∧
      talks' = Function.update talks x (f t :: earlier) := by
  cases fd with
  | none => cases h
  | some x =>
    cases hx : talks x with
    | nil =>
      simp only [Talks.pass, hx] at h
      cases h
    | cons t earlier =>
      simp only [Talks.pass, hx, Option.some.injEq] at h
      exact ⟨x, t, earlier, rfl, hx, h.symm⟩

end DragonsNet.Native.EchoKernel
