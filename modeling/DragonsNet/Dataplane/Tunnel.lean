/- GID: DragonsNet/Dataplane/Tunnel
   source: migration/dataplane/host/src/l4.rs, wg.rs
   digest: The encrypted datagram relay, and which counters and replies its calls use. -/

import DragonsNet.Lib.LittleEndian
import DragonsNet.Lib.Runs

set_option autoImplicit false

namespace DragonsNet.Dataplane.Tunnel

open Lib.LittleEndian (toLe ofLe length_toLe ofLe_toLe_of_lt)
open Lib.Runs (run Meets invariant_of_meets)

abbrev Octets := List UInt8

structure Key where
  octets : Octets
  length_eq : octets.length = 32

/-- The cipher of the transport: what it seals under a key and a counter it opens again. -/
structure Aead where
  enc : Octets → ℕ → Octets → Option Octets
  dec : Octets → ℕ → Octets → Option Octets
  dec_enc : ∀ {key counter payload sealed}, enc key counter payload = some sealed →
    dec key counter sealed = some payload

def WINDOW_SIZE : ℕ := 64

/-! ## The host -/

/-- What the relay is linked with. -/
structure Seams where
  drorbWgSeal : Octets → Octets
  drorbWgOpen : Octets → Octets

def sealInput (key : Key) (receiver : UInt32) (counter : UInt64) (payload : Octets) : Octets :=
  key.octets ++ toLe 4 receiver.toNat ++ toLe 8 counter.toNat ++ payload

def sealPacket (S : Seams) (key : Key) (receiver : UInt32) (counter : UInt64) (payload : Octets) :
    Option Octets :=
  match S.drorbWgSeal (sealInput key receiver counter payload) with
  | 1 :: out => some out
  | _ => none

structure Window where
  next : UInt64
  seen : List UInt64
  deriving DecidableEq, Repr

def Window.new : Window := ⟨0, []⟩

def Window.input (w : Window) (key : Key) (wire : Octets) : Octets :=
  key.octets ++ toLe 8 w.next.toNat ++ toLe 4 (w.seen.length % 2 ^ 32) ++
    w.seen.flatMap (fun c => toLe 8 c.toNat) ++ wire

def words : ℕ → Octets → List ℕ
  | 0, _ => []
  | n + 1, octets => ofLe (octets.take 8) :: words n (octets.drop 8)

/-- `Window::open`: the window after the packet, and its payload. -/
def Window.openPacket (S : Seams) (w : Window) (key : Key) (wire : Octets) :
    Option (Window × Octets) :=
  let out := S.drorbWgOpen (w.input key wire)
  if out.head? ≠ some 1 ∨ out.length < 13 then none
  else
    let next := UInt64.ofNat (ofLe ((out.drop 1).take 8))
    let nSeen := ofLe ((out.drop 9).take 4)
    let seenEnd := 13 + nSeen * 8
    if out.length < seenEnd then none
    else
      let seen := (words nSeen (out.drop 13)).map UInt64.ofNat
      let seen := seen.filter fun c => next ≤ c + UInt64.ofNat WINDOW_SIZE
      some (⟨next, seen⟩, out.drop seenEnd)

/-- A datagram of a client, and how the world answers the call that forwards it: the backend
picked and its address, whether the sockets work, the reply that comes, and whether it can be
sent on. -/
structure Call where
  data : Octets
  pick : Option UInt32
  addr : Bool
  binds : Bool
  sends : Bool
  reply : Option Octets
  relays : Bool
  deriving DecidableEq, Repr

/-- What calls have sealed, and which replies they have opened and delivered. -/
structure Log where
  sealed : List Octets
  delivered : List Octets
  deriving DecidableEq, Repr

/-- `forward_datagram` with a tunnel key: the packet it seals, the reply it delivers, and its
result. -/
def forwardDatagram (S : Seams) (key : Key) (c : Call) : Option Octets × Option Octets × Option ℕ :=
  match c.pick with
  | none => (none, none, none)
  | some id =>
    if !c.addr || !c.binds then (none, none, none)
    else
      match sealPacket S key id 0 c.data with
      | none => (none, none, none)
      | some out =>
        match c.sends, c.reply with
        | true, some buf =>
          match Window.new.openPacket S key buf with
          | some (_, plain) =>
            if c.relays then (some out, some buf, some plain.length) else (some out, none, none)
          | none => (some out, none, none)
        | _, _ => (some out, none, none)

def step (S : Seams) (key : Key) (log : Log) (c : Call) : Option Log :=
  let (out, reply, _) := forwardDatagram S key c
  some ⟨log.sealed ++ out.toList, log.delivered ++ reply.toList⟩

def start : Log := ⟨[], []⟩

/-! ## The assumption: the seams are WireGuard's -/

/-- A type-4 packet: its receiver, its counter and the sealed payload. -/
def packet (receiver counter : ℕ) (body : Octets) : Octets :=
  [4, 0, 0, 0] ++ toLe 4 receiver ++ toLe 8 counter ++ body

def receiverOf (wire : Octets) : ℕ := ofLe ((wire.drop 4).take 4)

def counterOf (wire : Octets) : ℕ := ofLe ((wire.drop 8).take 8)

/-- The replay filter: a counter is new above the mark, and within the window where it was not
seen. -/
def willAccept (next : ℕ) (seen : List ℕ) (counter : ℕ) : Bool :=
  next ≤ counter || (next ≤ counter + WINDOW_SIZE && !seen.contains counter)

def transportPacket (A : Aead) (key : Octets) (receiver counter : ℕ) (payload : Octets) : Octets :=
  match A.enc key counter payload with
  | some body => 1 :: packet receiver counter body
  | none => [0]

/-- The window after a packet, and its payload, or a refusal. -/
def replayWindow (A : Aead) (key : Octets) (next : ℕ) (seen : List ℕ) (wire : Octets) : Octets :=
  let counter := counterOf wire
  if wire.take 4 = [4, 0, 0, 0] ∧ 16 ≤ wire.length ∧ willAccept next seen counter then
    match A.dec key counter (wire.drop 16) with
    | some payload =>
      1 :: toLe 8 (max next (counter + 1)) ++ toLe 4 (seen.length + 1) ++
        (counter :: seen).flatMap (toLe 8) ++ payload
    | none => [0]
  else [0]

/-- On what the relay gives them, `drorb_wg_seal` makes the transport packet and `drorb_wg_open`
answers as the replay window. -/
structure WireGuard (A : Aead) (S : Seams) : Prop where
  seals : ∀ (key : Key) (receiver : UInt32) (counter : UInt64) (payload : Octets),
    S.drorbWgSeal (sealInput key receiver counter payload) =
      transportPacket A key.octets receiver.toNat counter.toNat payload
  opens : ∀ (key : Key) (w : Window) (wire : Octets), w.seen.length < 2 ^ 32 →
    S.drorbWgOpen (w.input key wire) =
      replayWindow A key.octets w.next.toNat (w.seen.map UInt64.toNat) wire

section Packets

variable {A : Aead} {S : Seams} {key : Key}

private theorem receiverOf_packet {receiver : ℕ} (h : receiver < 2 ^ 32) (counter : ℕ)
    (body : Octets) :
    receiverOf (packet receiver counter body) = receiver := by
  have hdrop : (packet receiver counter body).drop 4 =
      toLe 4 receiver ++ (toLe 8 counter ++ body) := by
    simp only [packet, List.append_assoc]
    rfl
  rw [receiverOf, hdrop, List.take_left' (length_toLe 4 receiver)]
  exact ofLe_toLe_of_lt h

private theorem receiverOf_sealPacket (hS : WireGuard A S) {id : UInt32} {counter : UInt64}
    {payload out : Octets} (h : sealPacket S key id counter payload = some out) :
    receiverOf out = id.toNat := by
  rw [sealPacket, hS.seals, transportPacket] at h
  cases hbody : A.enc key.octets counter.toNat payload with
  | none =>
    rw [hbody] at h
    cases h
  | some body =>
    rw [hbody] at h
    obtain rfl := Option.some.inj h
    exact receiverOf_packet id.toNat_lt _ _

private theorem forwardDatagram_spec (hS : WireGuard A S) (c : Call) :
    (∀ out ∈ (forwardDatagram S key c).1, ∃ id ∈ c.pick, receiverOf out = id.toNat) ∧
      ∀ reply ∈ (forwardDatagram S key c).2.1, reply ∈ c.reply := by
  have hnone : ∀ {P : Octets → Prop}, ∀ out ∈ (none : Option Octets), P out :=
    fun out h => absurd h (Option.not_mem_none out)
  unfold forwardDatagram
  cases hpick : c.pick with
  | none => exact ⟨hnone, hnone⟩
  | some id =>
    dsimp only
    by_cases hsocket : (!c.addr || !c.binds) = true
    · rw [if_pos hsocket]
      exact ⟨hnone, hnone⟩
    rw [if_neg hsocket]
    cases hseal : sealPacket S key id 0 c.data with
    | none => exact ⟨hnone, hnone⟩
    | some out =>
      have hout : ∀ p ∈ some out, ∃ id' ∈ some id, receiverOf p = id'.toNat := by
        intro p hp
        obtain rfl := Option.mem_some.mp hp
        exact ⟨id, Option.mem_some_self id, receiverOf_sealPacket hS hseal⟩
      cases c.sends with
      | false => exact ⟨hout, hnone⟩
      | true =>
        cases c.reply with
        | none => exact ⟨hout, hnone⟩
        | some buf =>
          dsimp only
          cases Window.new.openPacket S key buf with
          | none => exact ⟨hout, hnone⟩
          | some opened =>
            dsimp only
            by_cases hrelay : c.relays = true
            · rw [if_pos hrelay]
              exact ⟨hout, fun reply hreply => hreply⟩
            · rw [if_neg hrelay]
              exact ⟨hout, hnone⟩

end Packets

/-! ## Counters and replies over a run -/

/-- No two packets for one receiver have one counter, and no reply was delivered twice. -/
structure NoReuse (log : Log) : Prop where
  counters : (log.sealed.map fun p => (receiverOf p, counterOf p)).Nodup
  replies : log.delivered.Nodup

/-- The call picks a backend nothing was sealed for yet, and gets a reply not delivered yet. -/
def FreshCall (log : Log) (c : Call) : Prop :=
  (∀ id ∈ c.pick, ∀ p ∈ log.sealed, receiverOf p ≠ id.toNat) ∧
    ∀ reply ∈ c.reply, reply ∉ log.delivered

instance (log : Log) (c : Call) : Decidable (FreshCall log c) :=
  -- By the option, not by search: that may decide the first part over every `UInt32`.
  @instDecidableAnd _ _ (Option.decidableForallMem c.pick) (Option.decidableForallMem c.reply)

private theorem nodup_append_toList {α : Type} {l : List α} {o : Option α} (h : l.Nodup)
    (hnew : ∀ a ∈ o, a ∉ l) : (l ++ o.toList).Nodup := by
  cases o with
  | none => rwa [Option.toList_none, List.append_nil]
  | some a =>
    rw [Option.toList_some]
    exact List.Nodup.append h (List.nodup_singleton a)
      (List.disjoint_singleton.mpr (hnew a rfl))

private theorem start_noReuse : NoReuse start := ⟨List.nodup_nil, List.nodup_nil⟩

private theorem step_noReuse {A : Aead} {S : Seams} (hS : WireGuard A S) {key : Key}
    {log log' : Log}
    {c : Call} (h : NoReuse log) (hfresh : FreshCall log c)
    (hstep : step S key log c = some log') : NoReuse log' := by
  obtain ⟨hsealed, hreply⟩ := @forwardDatagram_spec A S key hS c
  obtain rfl := Option.some.inj hstep
  refine ⟨?_, ?_⟩
  · rw [List.map_append, ← Option.toList_map]
    refine nodup_append_toList h.counters fun head hhead hin => ?_
    obtain ⟨out, hout, rfl⟩ := Option.mem_map.mp hhead
    obtain ⟨p, hp, hsame⟩ := List.mem_map.mp hin
    obtain ⟨id, hid, hreceiver⟩ := hsealed out hout
    exact hfresh.1 id hid p hp ((Prod.mk.inj hsame).1.trans hreceiver)
  · exact nodup_append_toList h.replies fun reply hin => hfresh.2 reply (hreply reply hin)

/-- Every packet has counter 0, and every reply meets an empty window: a run keeps the tunnel's
promise where each call seals for a backend of its own and gets a reply of its own. -/
theorem tunnel_counters_fresh (A : Aead) (S : Seams) (hS : WireGuard A S) (key : Key)
    (calls : List Call) (log : Log) (hfresh : Meets (step S key) FreshCall start calls)
    (h : run (step S key) start calls = some log) : NoReuse log :=
  invariant_of_meets (step_noReuse hS) start_noReuse hfresh h

/-! ## Seams that are WireGuard's, for any cipher -/

def wireGuard (A : Aead) : Seams where
  drorbWgSeal input :=
    transportPacket A (input.take 32) (ofLe ((input.drop 32).take 4))
      (ofLe ((input.drop 36).take 8)) (input.drop 44)
  drorbWgOpen input :=
    let nSeen := ofLe ((input.drop 40).take 4)
    replayWindow A (input.take 32) (ofLe ((input.drop 32).take 8)) (words nSeen (input.drop 44))
      (input.drop (44 + 8 * nSeen))

private theorem words_flatMap (seen : List UInt64) (rest : Octets) :
    words seen.length (seen.flatMap (fun c => toLe 8 c.toNat) ++ rest) = seen.map UInt64.toNat := by
  induction seen with
  | nil => rfl
  | cons c seen ih =>
    rw [List.length_cons, words, List.flatMap_cons, List.append_assoc,
      List.take_left' (length_toLe 8 c.toNat), List.drop_left' (length_toLe 8 c.toNat), ih,
      ofLe_toLe_of_lt c.toNat_lt, List.map_cons]

/-- The fields of an input: a key, two numbers and the rest. -/
theorem input_fields {m n : ℕ} {key first second : Octets} (hkey : key.length = 32)
    (hfirst : first.length = m) (hsecond : second.length = n) (rest : Octets) :
    (key ++ first ++ second ++ rest).take 32 = key ∧
      ((key ++ first ++ second ++ rest).drop 32).take m = first ∧
      ((key ++ first ++ second ++ rest).drop (32 + m)).take n = second ∧
      (key ++ first ++ second ++ rest).drop (32 + m + n) = rest := by
  subst hfirst hsecond
  simp [List.drop_append, hkey, List.drop_of_length_le, Nat.add_assoc]

private theorem length_words (seen : List UInt64) :
    (seen.flatMap fun c => toLe 8 c.toNat).length = 8 * seen.length := by
  induction seen with
  | nil => rfl
  | cons c seen ih =>
    rw [List.flatMap_cons, List.length_append, ih, length_toLe, List.length_cons]
    omega

private theorem wireGuard_spec (A : Aead) : WireGuard A (wireGuard A) where
  seals key receiver counter payload := by
    obtain ⟨hkey, hreceiver, hcounter, hpayload⟩ := input_fields key.length_eq
      (length_toLe 4 receiver.toNat) (length_toLe 8 counter.toNat) payload
    have hreceiver' : ofLe (toLe 4 receiver.toNat) = receiver.toNat :=
      ofLe_toLe_of_lt receiver.toNat_lt
    have hcounter' : ofLe (toLe 8 counter.toNat) = counter.toNat :=
      ofLe_toLe_of_lt counter.toNat_lt
    simp only [wireGuard, sealInput, hkey, hreceiver, hcounter, hpayload, hreceiver', hcounter']
  opens key w wire hseen := by
    obtain ⟨hkey, hnext, hlength, hrest⟩ := input_fields key.length_eq
      (length_toLe 8 w.next.toNat) (length_toLe 4 (w.seen.length % 2 ^ 32))
      (w.seen.flatMap (fun c => toLe 8 c.toNat) ++ wire)
    have hnext' : ofLe (toLe 8 w.next.toNat) = w.next.toNat := ofLe_toLe_of_lt w.next.toNat_lt
    have hlength' : ofLe (toLe 4 (w.seen.length % 2 ^ 32)) = w.seen.length := by
      rw [Nat.mod_eq_of_lt hseen]
      exact ofLe_toLe_of_lt hseen
    simp only [wireGuard, Window.input, List.append_assoc _ _ wire, hkey, hnext, hlength, hrest,
      hnext', hlength', words_flatMap]
    rw [← List.drop_drop, hrest, List.drop_left' (length_words w.seen)]

/-- A cipher to run the relay with: each octet under an octet of the key and of the counter, and
before them an octet that the others have to add up to. -/
def masked (key : Octets) (counter : ℕ) (octets : Octets) : Octets :=
  octets.mapIdx fun i b => b ^^^ (key.getD (i % 32) 0 + UInt8.ofNat (counter + i))

def tag (key : Octets) (counter : ℕ) (octets : Octets) : UInt8 :=
  (key ++ octets).foldl (fun sum b => 31 * sum + b) (UInt8.ofNat counter)

def unmasked (key : Octets) (counter : ℕ) : Octets → Option Octets
  | [] => none
  | sum :: body =>
    let payload := masked key counter body
    if tag key counter payload = sum then some payload else none

private theorem masked_masked (key : Octets) (counter : ℕ) (octets : Octets) :
    masked key counter (masked key counter octets) = octets := by
  apply List.ext_getElem
  · simp [masked]
  · intro i _ _
    simp only [masked, List.getElem_mapIdx, UInt8.xor_assoc, UInt8.xor_self, UInt8.xor_zero]

def keyed : Aead where
  enc key counter payload := some (tag key counter payload :: masked key counter payload)
  dec := unmasked
  dec_enc := by
    intro key counter payload sealed h
    obtain rfl := Option.some.inj h
    simp only [unmasked, masked_masked, if_true]

def someKey : Key := ⟨List.replicate 32 0x5A, List.length_replicate⟩

/-- The packet in which `data` goes to a backend, or comes from it. -/
def carries (id : UInt32) (data : Octets) : Octets :=
  packet id.toNat 0 (tag someKey.octets 0 data :: masked someKey.octets 0 data)

def exchange (id : UInt32) (data reply : Octets) : Call :=
  ⟨data, some id, true, true, true, some (carries id reply), true⟩

/-- What a run leaves that has sealed 1 for each of two backends and relayed 2 from each. -/
def twoBackends : Log :=
  ⟨[carries 0 [1], carries 1 [1]], [carries 0 [2], carries 1 [2]]⟩

theorem twoBackends_fresh :
    run (step (wireGuard keyed) someKey) start [exchange 0 [1] [2], exchange 1 [1] [2]] =
      some twoBackends ∧ NoReuse twoBackends := by
  have hrun : run (step (wireGuard keyed) someKey) start [exchange 0 [1] [2], exchange 1 [1] [2]] =
      some twoBackends := by decide +kernel
  exact ⟨hrun, tunnel_counters_fresh keyed (wireGuard keyed) (wireGuard_spec keyed) someKey _
    twoBackends (by decide +kernel) hrun⟩

/-- Two datagrams for one backend are sealed under one counter, and a reply that comes twice is
delivered twice. -/
theorem one_backend_reuses :
    WireGuard keyed (wireGuard keyed) ∧
      run (step (wireGuard keyed) someKey) start [exchange 0 [1] [2], exchange 0 [3] [2]] =
        some ⟨[carries 0 [1], carries 0 [3]], [carries 0 [2], carries 0 [2]]⟩ ∧
      ¬ NoReuse ⟨[carries 0 [1], carries 0 [3]], [carries 0 [2], carries 0 [2]]⟩ ∧
      [carries 0 [1], carries 0 [3]].map (fun p => (receiverOf p, counterOf p)) =
        [(0, 0), (0, 0)] := by
  refine ⟨wireGuard_spec keyed, by decide +kernel, fun h => ?_, by decide +kernel⟩
  exact absurd h.replies (by decide +kernel)

end DragonsNet.Dataplane.Tunnel
