/- GID: DragonsNet/Dataplane/BufferLeases
   source: migration/dataplane/host/src/bufring.rs, migration/dataplane/host/src/uring.rs
   digest: The provided-buffer ring of a shard, the leases its connections hold, and where every
     buffer is. -/

import DragonsNet.Lib.Lists
import DragonsNet.Lib.MaskRing
import DragonsNet.Lib.Runs
import Mathlib.Data.List.Perm.Subperm

set_option autoImplicit false

namespace DragonsNet.Dataplane.BufferLeases

open Lib
open Lib.MaskRing
open Lib.Runs

/-- `BR_ENTRIES`, a power of two, `RECV_CHUNK`, and where the storage is mapped. -/
structure Config where
  k : ℕ
  bufSize : ℕ
  bufs : BitVec 64
  k_le : k ≤ 15
  mapped : bufs.toNat + 2 ^ k * bufSize < 2 ^ 64

def Config.entries (cfg : Config) : ℕ := 2 ^ cfg.k

structure Record where
  addr : BitVec 64
  len : BitVec 32
  bid : BitVec 16
  deriving DecidableEq, Repr

/-- `BufRing`: the records, the shard's tail, and the tail in the shared page. -/
structure BufRing where
  records : List Record
  tail : BitVec 16
  published : BitVec 16
  deriving DecidableEq, Repr

def mask (cfg : Config) : BitVec 16 := BitVec.ofNat 16 (2 ^ cfg.k - 1)

def record (cfg : Config) (bid : BitVec 16) : Record :=
  ⟨cfg.bufs + bid.setWidth 64 * BitVec.ofNat 64 cfg.bufSize, BitVec.ofNat 32 cfg.bufSize, bid⟩

namespace BufRing

variable {cfg : Config}

/-- `add`, which is also `recycle`. -/
def add (cfg : Config) (r : BufRing) (bid : BitVec 16) : BufRing where
  records := r.records.set (r.tail &&& mask cfg).toNat (record cfg bid)
  tail := r.tail + 1
  published := r.tail + 1

def new (cfg : Config) : BufRing :=
  (List.range cfg.entries).foldl (fun r b => r.add cfg (BitVec.ofNat 16 b))
    ⟨List.replicate cfg.entries ⟨0, 0, 0⟩, 0, 0⟩

/-- What the kernel may still lend, from its own head to the tail it sees. -/
def free (cfg : Config) (r : BufRing) (head : BitVec 16) : List Record :=
  (List.range (r.published - head).toNat).filterMap fun i =>
    r.records[((head + BitVec.ofNat 16 i) &&& mask cfg).toNat]?

def lend (cfg : Config) (r : BufRing) (head : BitVec 16) : Option Record :=
  if head = r.published then none else r.records[(head &&& mask cfg).toNat]?

end BufRing

inductive SplitBody where
  | lease (bid : BitVec 16)
  | static
  deriving DecidableEq, Repr

structure Conn where
  leased : Option (BitVec 16)
  reqLen : ℕ
  split : Option SplitBody
  deriving DecidableEq, Repr

def Conn.new : Conn := ⟨none, 0, none⟩

/-- A completion that brings a buffer: the slot of the receive, the buffer and the octets. -/
structure Delivery where
  slot : ℕ
  bid : BitVec 16
  n : ℕ
  deriving DecidableEq, Repr

/-- A shard. `conns` is its slab; `ZC_BORROW`, `ZC_FALLBACK` and `ZC_RECYCLE` are counted by
shard. The last three are for the record: the buffers lost with a panic, the leases another took
the place of, and the requests copied into a frame with the configuration. -/
structure State where
  ring : BufRing
  head : BitVec 16
  delivered : List Delivery
  conns : List (Option Conn)
  borrow : ℕ
  fallback : ℕ
  recycle : ℕ
  lost : List (BitVec 16)
  dropped : List (BitVec 16)
  framed : ℕ
  deriving DecidableEq, Repr

namespace State

def start (cfg : Config) : State := ⟨.new cfg, 0, [], [], 0, 0, 0, [], [], 0⟩

def conn (s : State) (slot : ℕ) : Option Conn := (s.conns[slot]?).getD none

def lease (s : State) (slot : ℕ) : Option (BitVec 16) := (s.conn slot).bind Conn.leased

def setConn (s : State) (slot : ℕ) (c : Option Conn) : State :=
  { s with conns := s.conns.set slot c }

def recycleBid (cfg : Config) (s : State) (bid : BitVec 16) : State :=
  { s with ring := s.ring.add cfg bid }

def takeLease (cfg : Config) (s : State) (slot : ℕ) : State :=
  match s.lease slot with
  | none => s
  | some bid =>
    let c := (s.conn slot).map fun c => { c with leased := none }
    { (s.recycleBid cfg bid).setConn slot c with recycle := s.recycle + 1 }

/-- The end of a connection on this shard: `close`, and the four that hand it to a thread. -/
def close (cfg : Config) (s : State) (slot : ℕ) : State :=
  (s.takeLease cfg slot).setConn slot none

def stageResponseAppended (cfg : Config) (s : State) (slot : ℕ) : State := s.takeLease cfg slot

def stageStaticSplitResponse (cfg : Config) (s : State) (slot : ℕ) : State :=
  (s.takeLease cfg slot).setConn slot
    (((s.takeLease cfg slot).conn slot).map fun c => { c with split := some .static })

def stageSplitResponse (s : State) (slot : ℕ) : State :=
  match s.lease slot with
  | none => s
  | some bid => s.setConn slot ((s.conn slot).map fun c => { c with split := some (.lease bid) })

def stageResponse (cfg : Config) (s : State) (slot : ℕ) (splitStatic splitSpan : Bool) : State :=
  if splitStatic then s.stageStaticSplitResponse cfg slot
  else if splitSpan then
    if (s.lease slot).isSome ∧ ((s.conn slot).any fun c => 0 < c.reqLen) then
      s.stageSplitResponse slot
    else s.close cfg slot
  else s.stageResponseAppended cfg slot

def splitSent (cfg : Config) (s : State) (slot : ℕ) : State :=
  (s.takeLease cfg slot).setConn slot
    (((s.takeLease cfg slot).conn slot).map fun c => { c with split := none })

/-- What `on_recv_br` makes of the octets: it copies them to the accumulation buffer, lends them
to the serve thread, copies them into a frame, or panics before any of these. The flag says
whether the serve thread took the request. -/
inductive Outcome where
  | copied
  | borrowed (ok : Bool)
  | framed (ok : Bool)
  | panicked
  deriving DecidableEq, Repr

def hold (s : State) (slot : ℕ) (bid : BitVec 16) (n : ℕ) : State :=
  { s.setConn slot ((s.conn slot).map fun c => { c with leased := some bid, reqLen := n }) with
    borrow := s.borrow + 1
    dropped := s.dropped ++ (s.lease slot).toList }

def onRecvBr (cfg : Config) (s : State) (d : Delivery) (o : Outcome) : State :=
  match s.conn d.slot, o with
  | _, .panicked => { s with lost := s.lost ++ [d.bid] }.close cfg d.slot
  | none, _ => s.recycleBid cfg d.bid
  | some _, .copied => { s.recycleBid cfg d.bid with fallback := s.fallback + 1 }
  | some _, .borrowed true => s.hold d.slot d.bid d.n
  | some _, .borrowed false =>
    let s := s.hold d.slot d.bid d.n
    let s := s.setConn d.slot ((s.conn d.slot).map fun c => { c with leased := none })
    { s.recycleBid cfg d.bid with recycle := s.recycle + 1 }.close cfg d.slot
  | some _, .framed ok =>
    let s := { s.recycleBid cfg d.bid with
      fallback := s.fallback + 1, recycle := s.recycle + 1, framed := s.framed + 1 }
    if ok then s else s.close cfg d.slot

/-- What touches a lease, in whatever order the completions come: a connection in a slot that is
free or new, a buffer lent to a receive, and the handlers. -/
inductive Act where
  | accept (slot : ℕ)
  | lend (slot n : ℕ)
  | recvBr (j : ℕ) (o : Outcome)
  | stage (slot : ℕ) (splitStatic splitSpan : Bool)
  | splitSent (slot : ℕ)
  | streamFinish (slot : ℕ)
  | close (slot : ℕ)
  deriving DecidableEq, Repr

def step (cfg : Config) (s : State) : Act → Option State
  | .accept slot =>
    if slot < s.conns.length then
      if (s.conn slot).isNone then some (s.setConn slot (some .new)) else none
    else if slot = s.conns.length then some { s with conns := s.conns ++ [some .new] }
    else none
  | .lend slot n =>
    if 0 < n ∧ n ≤ cfg.bufSize then
      (s.ring.lend cfg s.head).map fun r =>
        { s with head := s.head + 1, delivered := s.delivered ++ [⟨slot, r.bid, n⟩] }
    else none
  | .recvBr j o =>
    (s.delivered[j]?).map fun d =>
      ({ s with delivered := s.delivered.eraseIdx j } : State).onRecvBr cfg d o
  | .stage slot splitStatic splitSpan => some (s.stageResponse cfg slot splitStatic splitSpan)
  | .splitSent slot => some (s.splitSent cfg slot)
  | .streamFinish slot => some (s.takeLease cfg slot)
  | .close slot => some (s.close cfg slot)

def leaseCount (s : State) (b : BitVec 16) : ℕ :=
  s.conns.countP fun c => c.bind Conn.leased = some b

def leases (s : State) : ℕ := s.conns.countP fun c => (c.bind Conn.leased).isSome

end State

/-- The ring has these buffers to lend, the first at position `h`. -/
structure RingOk (cfg : Config) (r : BufRing) (h : ℕ) (items : List (BitVec 16)) : Prop where
  holds : Holds cfg.k r.records h (items.map (record cfg))
  tail : r.tail = BitVec.ofNat 16 (h + items.length)
  published : r.published = r.tail

variable {cfg : Config} {h : ℕ} {items : List (BitVec 16)} {r : BufRing}

theorem RingOk.add (R : RingOk cfg r h items) (hroom : items.length < 2 ^ cfg.k) (b : BitVec 16) :
    RingOk cfg (r.add cfg b) h (items ++ [b]) where
  holds := by
    have hindex : (r.tail &&& mask cfg).toNat = (h + items.length) % 2 ^ cfg.k := by
      rw [R.tail, mask]
      exact toNat_and_mask (cfg.k_le.trans (by decide)) _
    have hpush := R.holds.push (by rw [List.length_map]; exact hroom) (record cfg b)
    rw [List.length_map] at hpush
    rw [BufRing.add, hindex, List.map_append, List.map_singleton]
    exact hpush
  tail := by
    rw [BufRing.add, R.tail, ofNat_succ, List.length_append, List.length_singleton, Nat.add_assoc]
  published := rfl

private theorem RingOk.length_lt (R : RingOk cfg r h items) : items.length < 2 ^ 16 := by
  have hfits := R.holds.fits
  rw [List.length_map] at hfits
  have hpow : 2 ^ cfg.k ≤ 2 ^ 15 := Nat.pow_le_pow_right (by decide) cfg.k_le
  omega

private theorem RingOk.free_eq (R : RingOk cfg r h items) :
    r.free cfg (BitVec.ofNat 16 h) = items.map (record cfg) := by
  have hlength : (r.published - BitVec.ofNat 16 h).toNat = items.length := by
    have hlt := R.length_lt
    rw [R.published, R.tail, toNat_sub (Nat.le_add_right _ _) (by omega)]
    omega
  have hcell : ∀ i < items.length,
      r.records[((BitVec.ofNat 16 h + BitVec.ofNat 16 i) &&& mask cfg).toNat]? =
        (items.map (record cfg))[i]? := by
    intro i hi
    have hindex : ((BitVec.ofNat 16 h + BitVec.ofNat 16 i) &&& mask cfg).toNat =
        (h + i) % 2 ^ cfg.k := by
      rw [← BitVec.ofNat_add, mask]
      exact toNat_and_mask (cfg.k_le.trans (by decide)) _
    rw [hindex]
    exact R.holds.cell i (by rw [List.length_map]; exact hi)
  have hread := Lists.filterMap_range_getElem? (items.map (record cfg))
  rw [List.length_map] at hread
  rw [BufRing.free, hlength, List.filterMap_congr fun i hi => hcell i (List.mem_range.mp hi), hread]

private theorem RingOk.lend (R : RingOk cfg r h items) {x : Record}
    (hlend : r.lend cfg (BitVec.ofNat 16 h) = some x) :
    ∃ b rest, items = b :: rest ∧ x = record cfg b ∧ RingOk cfg r (h + 1) rest := by
  rw [BufRing.lend] at hlend
  split at hlend
  · cases hlend
  · rename_i hne
    cases items with
    | nil =>
      rw [R.published, R.tail] at hne
      exact absurd rfl hne
    | cons b rest =>
      have hindex : (BitVec.ofNat 16 h &&& mask cfg).toNat = h % 2 ^ cfg.k :=
        toNat_and_mask (cfg.k_le.trans (by decide)) h
      have hfront : r.records[h % 2 ^ cfg.k]? = some (record cfg b) := R.holds.front
      rw [hindex, hfront] at hlend
      refine ⟨b, rest, rfl, (Option.some.inj hlend).symm, R.holds.pop, ?_, R.published⟩
      rw [R.tail, List.length_cons, Nat.add_right_comm, Nat.add_assoc]

private theorem ringOk_fill {n : ℕ} (hn : n ≤ 2 ^ cfg.k) :
    RingOk cfg ((List.range n).foldl (fun r b => r.add cfg (BitVec.ofNat 16 b))
      ⟨List.replicate cfg.entries ⟨0, 0, 0⟩, 0, 0⟩) 0 ((List.range n).map (BitVec.ofNat 16)) := by
  induction n with
  | zero => exact ⟨Holds.nil (List.length_replicate ..) 0, rfl, rfl⟩
  | succ n ih =>
    have hroom : ((List.range n).map (BitVec.ofNat 16)).length < 2 ^ cfg.k := by
      rw [List.length_map, List.length_range]
      omega
    rw [List.range_succ, List.foldl_append, List.map_append]
    exact (ih (by omega)).add hroom (BitVec.ofNat 16 n)

namespace State

/-- Every buffer is in one place: in the ring, in a completion, in a lease, lost, dropped, or in
the hand of the handler that runs. -/
structure At (cfg : Config) (s : State) (hand : List (BitVec 16)) (h : ℕ)
    (items : List (BitVec 16)) : Prop where
  ring : RingOk cfg s.ring h items
  head : s.head = BitVec.ofNat 16 h
  once : ∀ b : BitVec 16, items.count b + s.delivered.countP (fun d => d.bid = b) +
    s.leaseCount b + s.lost.count b + s.dropped.count b + hand.count b =
      if b.toNat < 2 ^ cfg.k then 1 else 0
  counted : s.recycle + s.leases + s.dropped.length = s.borrow + s.framed

def Inv (cfg : Config) (s : State) (hand : List (BitVec 16)) : Prop :=
  ∃ h items, s.At cfg hand h items

variable {s t : State} {hand : List (BitVec 16)} {slot h : ℕ} {b : BitVec 16} {c : Option Conn}
  {items : List (BitVec 16)} {x : Conn} {hand' : List (BitVec 16)}

private theorem conns_of_conn (hc : s.conn slot = some x) : s.conns[slot]? = some (some x) := by
  rw [conn] at hc
  cases hget : s.conns[slot]? with
  | none =>
    rw [hget] at hc
    cases hc
  | some y =>
    rw [hget] at hc
    rw [← hc]
    rfl

private theorem lease_of_conns {o : Option Conn} (ho : s.conns[slot]? = some o) :
    s.lease slot = o.bind Conn.leased := by
  rw [lease, conn, ho, Option.getD_some]

private theorem leaseCount_setConn (hin : slot < s.conns.length) (c : Option Conn) (b : BitVec 16) :
    (s.setConn slot c).leaseCount b + (if s.lease slot = some b then 1 else 0) =
      s.leaseCount b + if c.bind Conn.leased = some b then 1 else 0 := by
  have hget := List.getElem?_eq_getElem hin
  rw [lease_of_conns hget]
  have hadd := Lists.countP_set_add hget c fun c => decide (c.bind Conn.leased = some b)
  simp only [decide_eq_true_eq] at hadd
  exact hadd

private theorem leases_setConn (hin : slot < s.conns.length) (c : Option Conn) :
    (s.setConn slot c).leases + (if (s.lease slot).isSome then 1 else 0) =
      s.leases + if (c.bind Conn.leased).isSome then 1 else 0 := by
  have hget := List.getElem?_eq_getElem hin
  rw [lease_of_conns hget]
  exact Lists.countP_set_add hget c fun c => (c.bind Conn.leased).isSome

private theorem setConn_of_le (hout : s.conns.length ≤ slot) (c : Option Conn) :
    s.setConn slot c = s := by
  rw [setConn, List.set_eq_of_length_le hout]

theorem At.room (A : s.At cfg (b :: hand) h items) : items.length < 2 ^ cfg.k := by
  have hcount : ∀ x : BitVec 16, (b :: items).count x ≤ if x.toNat < 2 ^ cfg.k then 1 else 0 := by
    intro x
    have honce := A.once x
    rw [List.count_cons] at honce ⊢
    omega
  have hnodup : (b :: items).Nodup := by
    rw [List.nodup_iff_count_le_one]
    intro x
    refine (hcount x).trans ?_
    split <;> omega
  have hsub : (b :: items).map BitVec.toNat ⊆ List.range (2 ^ cfg.k) := by
    intro n hn
    obtain ⟨x, hx, rfl⟩ := List.mem_map.mp hn
    have hpos := List.count_pos_iff.mpr hx
    have hle := hcount x
    rw [List.mem_range]
    by_contra hge
    rw [if_neg hge] at hle
    omega
  have hmap : ((b :: items).map BitVec.toNat).Nodup :=
    hnodup.map fun x y hxy => BitVec.eq_of_toNat_eq hxy
  have hlength := (List.subperm_of_subset hmap hsub).length_le
  rw [List.length_map, List.length_range, List.length_cons] at hlength
  exact hlength

private theorem At.recycleBid (A : s.At cfg (b :: hand) h items) :
    (s.recycleBid cfg b).At cfg hand h (items ++ [b]) where
  ring := A.ring.add A.room b
  head := A.head
  once := by
    intro x
    have honce := A.once x
    rw [List.count_append, List.count_singleton]
    rw [List.count_cons] at honce
    change _ + s.delivered.countP _ + s.leaseCount x + s.lost.count x + s.dropped.count x + _ = _
    omega
  counted := A.counted

theorem At.setConn (A : s.At cfg hand h items) (hc : c.bind Conn.leased = s.lease slot) :
    (s.setConn slot c).At cfg hand h items := by
  rcases Nat.lt_or_ge slot s.conns.length with hin | hout
  · have hcount : ∀ x, (s.setConn slot c).leaseCount x = s.leaseCount x := by
      intro x
      have hadd := leaseCount_setConn hin c x
      rw [hc] at hadd
      exact Nat.add_right_cancel hadd
    have hleases : (s.setConn slot c).leases = s.leases := by
      have hadd := leases_setConn hin c
      rw [hc] at hadd
      exact Nat.add_right_cancel hadd
    refine ⟨A.ring, A.head, ?_, ?_⟩
    · intro x
      rw [hcount x]
      exact A.once x
    · rw [hleases]
      exact A.counted
  · rw [setConn_of_le hout]
    exact A

theorem At.release (A : s.At cfg hand h items) (hlease : s.lease slot = some b)
    (hc : c.bind Conn.leased = none) :
    ({ s.setConn slot c with recycle := s.recycle + 1 } : State).At cfg (b :: hand) h items := by
  have hin : slot < s.conns.length := by
    by_contra hout
    rw [lease, conn, List.getElem?_eq_none (Nat.le_of_not_lt hout)] at hlease
    cases hlease
  refine ⟨A.ring, A.head, ?_, ?_⟩
  · intro x
    have hadd := leaseCount_setConn hin c x
    have honce := A.once x
    simp only [hlease, hc, if_neg (Option.some_ne_none x).symm, Option.some.injEq] at hadd
    rw [List.count_cons]
    simp only [beq_iff_eq]
    change _ + s.delivered.countP _ + (s.setConn slot c).leaseCount x + s.lost.count x +
      s.dropped.count x + _ = _
    omega
  · have hadd := leases_setConn hin c
    have hcounted := A.counted
    rw [hlease, hc, Option.isSome_some, if_pos rfl, Option.isSome_none,
      if_neg Bool.false_ne_true] at hadd
    change s.recycle + 1 + (s.setConn slot c).leases + s.dropped.length = s.borrow + s.framed
    omega

private theorem bind_leased_none (c : Option Conn) :
    (c.map fun c => { c with leased := none }).bind Conn.leased = none := by
  cases c with
  | none => rfl
  | some x => rfl

private theorem lease_takeLease (cfg : Config) (s : State) (slot : ℕ) :
    (s.takeLease cfg slot).lease slot = none := by
  rw [State.takeLease]
  cases hlease : s.lease slot with
  | none => exact hlease
  | some b =>
    obtain ⟨x, hx, -⟩ := Option.bind_eq_some_iff.mp hlease
    have hin := (List.getElem?_eq_some_iff.mp (conns_of_conn hx)).1
    refine (lease_of_conns (o := some { x with leased := none }) ?_).trans rfl
    change (s.conns.set slot _)[slot]? = _
    rw [List.getElem?_set_self hin, hx]
    rfl

private theorem hold_released (hx : s.conn slot = some x) (b : BitVec 16) (n : ℕ) :
    (s.hold slot b n).lease slot = some b := by
  have hin := (List.getElem?_eq_some_iff.mp (conns_of_conn hx)).1
  refine (lease_of_conns (o := some { x with leased := some b, reqLen := n }) ?_).trans rfl
  change (s.conns.set slot _)[slot]? = _
  rw [List.getElem?_set_self hin, hx]
  rfl

/-- What the handlers do with the connections and with the buffers in hand, when they set no lease:
a lease comes off its connection, a buffer goes to the ring, a connection is written with the lease
it had or comes new, and something is counted. -/
inductive Gives (cfg : Config) : State → List (BitVec 16) → State → List (BitVec 16) → Prop where
  | refl (s : State) (hand : List (BitVec 16)) : Gives cfg s hand s hand
  | trans {s t u : State} {hand hand' hand'' : List (BitVec 16)} : Gives cfg s hand t hand' →
    Gives cfg t hand' u hand'' → Gives cfg s hand u hand''
  | release {s : State} {hand : List (BitVec 16)} {slot : ℕ} {c : Option Conn} {b : BitVec 16} :
    s.lease slot = some b → c.bind Conn.leased = none →
    Gives cfg s hand { s.setConn slot c with recycle := s.recycle + 1 } (b :: hand)
  | recycle (s : State) (b : BitVec 16) (hand : List (BitVec 16)) :
    Gives cfg s (b :: hand) (s.recycleBid cfg b) hand
  | keep {s : State} {hand : List (BitVec 16)} {slot : ℕ} {c : Option Conn} :
    c.bind Conn.leased = s.lease slot → Gives cfg s hand (s.setConn slot c) hand
  | append (s : State) (hand : List (BitVec 16)) :
    Gives cfg s hand { s with conns := s.conns ++ [some .new] } hand
  | count (s : State) (hand : List (BitVec 16)) (m n : ℕ) : Gives cfg s hand
    { s with fallback := m, recycle := s.recycle + n, framed := s.framed + n } hand

private theorem gives_takeLease (cfg : Config) (s : State) (slot : ℕ) (hand : List (BitVec 16)) :
    Gives cfg s hand (s.takeLease cfg slot) hand := by
  rw [takeLease]
  split
  · exact .refl s hand
  · rename_i b hlease
    exact (Gives.release hlease (bind_leased_none _)).trans (.recycle _ b hand)

private theorem gives_mapConn (cfg : Config) (s : State) (slot : ℕ) (hand : List (BitVec 16))
    {f : Conn → Conn} (hf : ∀ x, (f x).leased = x.leased) :
    Gives cfg s hand (s.setConn slot ((s.conn slot).map f)) hand := by
  refine .keep ?_
  rw [lease]
  cases s.conn slot with
  | none => rfl
  | some x => exact hf x

private theorem gives_close (cfg : Config) (s : State) (slot : ℕ) (hand : List (BitVec 16)) :
    Gives cfg s hand (s.close cfg slot) hand :=
  (gives_takeLease cfg s slot hand).trans (.keep (lease_takeLease cfg s slot).symm)

private theorem gives_stageResponse (cfg : Config) (s : State) (slot : ℕ)
    (splitStatic splitSpan : Bool)
    (hand : List (BitVec 16)) :
    Gives cfg s hand (s.stageResponse cfg slot splitStatic splitSpan) hand := by
  rw [stageResponse]
  split
  · exact (gives_takeLease ..).trans (gives_mapConn _ _ _ _ fun _ => rfl)
  · split
    · split
      · rw [stageSplitResponse]
        split
        · exact .refl s hand
        · exact gives_mapConn _ _ _ _ fun _ => rfl
      · exact gives_close ..
    · exact gives_takeLease ..

/-- What a handler does with the buffer it is brought: it gives it back, or sets the lease first, or
loses it. -/
theorem onRecvBr_cases (cfg : Config) (s : State) (d : Delivery) (o : Outcome) :
    Gives cfg s [d.bid] (s.onRecvBr cfg d o) [] ∨
      (∃ x, s.conn d.slot = some x ∧
        Gives cfg (s.hold d.slot d.bid d.n) [] (s.onRecvBr cfg d o) []) ∨
      o = .panicked ∧ Gives cfg { s with lost := s.lost ++ [d.bid] } [] (s.onRecvBr cfg d o) [] := by
  have hback : Gives cfg s [d.bid] (s.recycleBid cfg d.bid) [] := .recycle s d.bid []
  cases hconn : s.conn d.slot with
  | none =>
    rw [onRecvBr.eq_def, hconn]
    cases o with
    | panicked => exact .inr (.inr ⟨rfl, gives_close ..⟩)
    | copied | borrowed | framed => exact .inl hback
  | some x =>
    rw [onRecvBr.eq_def, hconn]
    cases o with
    | panicked => exact .inr (.inr ⟨rfl, gives_close ..⟩)
    | copied => exact .inl (hback.trans (.count _ [] (s.fallback + 1) 0))
    | borrowed ok =>
      refine .inr (.inl ⟨x, rfl, ?_⟩)
      cases ok with
      | true => exact .refl _ []
      | false =>
        have htake := gives_takeLease cfg (s.hold d.slot d.bid d.n) d.slot []
        rw [takeLease, hold_released hconn] at htake
        exact htake.trans (gives_close ..)
    | framed ok =>
      have hcount := hback.trans (.count _ [] (s.fallback + 1) 1)
      cases ok with
      | true => exact .inl hcount
      | false => exact .inl (hcount.trans (gives_close ..))

private theorem step_cases {a : Act} (hstep : s.step cfg a = some t) :
    Gives cfg s [] t [] ∨
      (∃ slot n x, a = .lend slot n ∧ s.ring.lend cfg s.head = some x ∧
        t = { s with head := s.head + 1, delivered := s.delivered ++ [⟨slot, x.bid, n⟩] }) ∨
      ∃ j o d, a = .recvBr j o ∧ s.delivered[j]? = some d ∧
        t = ({ s with delivered := s.delivered.eraseIdx j } : State).onRecvBr cfg d o := by
  cases a with
  | accept slot =>
    rw [step] at hstep
    split at hstep
    · split at hstep
      · rename_i hnone
        obtain rfl := Option.some.inj hstep
        refine .inl (.keep ?_)
        rw [lease, Option.isNone_iff_eq_none.mp hnone]
        rfl
      · cases hstep
    · split at hstep
      · obtain rfl := Option.some.inj hstep
        exact .inl (.append s [])
      · cases hstep
  | lend slot n =>
    rw [step] at hstep
    split at hstep
    · obtain ⟨x, hx, rfl⟩ := Option.map_eq_some_iff.mp hstep
      exact .inr (.inl ⟨slot, n, x, rfl, hx, rfl⟩)
    · cases hstep
  | recvBr j o =>
    obtain ⟨d, hd, rfl⟩ := Option.map_eq_some_iff.mp hstep
    exact .inr (.inr ⟨j, o, d, rfl, hd, rfl⟩)
  | stage slot splitStatic splitSpan =>
    obtain rfl := Option.some.inj hstep
    exact .inl (gives_stageResponse ..)
  | splitSent slot =>
    obtain rfl := Option.some.inj hstep
    exact .inl ((gives_takeLease ..).trans (gives_mapConn _ _ _ _ fun _ => rfl))
  | streamFinish slot =>
    obtain rfl := Option.some.inj hstep
    exact .inl (gives_takeLease ..)
  | close slot =>
    obtain rfl := Option.some.inj hstep
    exact .inl (gives_close ..)

theorem At.append (A : s.At cfg hand h items) :
    ({ s with conns := s.conns ++ [some .new] } : State).At cfg hand h items := by
  have hcount : ∀ p : Option Conn → Bool, p (some Conn.new) = false →
      (s.conns ++ [some Conn.new]).countP p = s.conns.countP p := by
    intro p hp
    rw [List.countP_append, List.countP_singleton, if_neg (ne_true_of_eq_false hp), Nat.add_zero]
  refine ⟨A.ring, A.head, ?_, ?_⟩
  · intro y
    have honce := A.once y
    rw [leaseCount, ← hcount _ (decide_eq_false (Option.some_ne_none y).symm)] at honce
    exact honce
  · have hcounted := A.counted
    rw [leases, ← hcount _ rfl] at hcounted
    exact hcounted

theorem Inv.gives (I : s.Inv cfg hand) (G : Gives cfg s hand t hand') : t.Inv cfg hand' := by
  induction G with
  | refl s hand => exact I
  | trans _ _ ih ih' => exact ih' (ih I)
  | release hlease hc =>
    obtain ⟨h, items, A⟩ := I
    exact ⟨h, items, A.release hlease hc⟩
  | recycle s b hand =>
    obtain ⟨h, items, A⟩ := I
    exact ⟨h, items ++ [b], A.recycleBid⟩
  | keep hc =>
    obtain ⟨h, items, A⟩ := I
    exact ⟨h, items, A.setConn hc⟩
  | append s hand =>
    obtain ⟨h, items, A⟩ := I
    exact ⟨h, items, A.append⟩
  | count s hand m n =>
    obtain ⟨h, items, A⟩ := I
    refine ⟨h, items, A.ring, A.head, A.once, ?_⟩
    have hcounted := A.counted
    change s.recycle + n + s.leases + s.dropped.length = s.borrow + (s.framed + n)
    omega

theorem Inv.hold (I : s.Inv cfg (b :: hand)) (hx : s.conn slot = some x) (n : ℕ) :
    (s.hold slot b n).Inv cfg hand := by
  obtain ⟨h, items, A⟩ := I
  have hin := (List.getElem?_eq_some_iff.mp (conns_of_conn hx)).1
  have hbind : ((s.conn slot).map fun c => { c with leased := some b, reqLen := n }).bind
      Conn.leased = some b := by
    rw [hx]
    rfl
  refine ⟨h, items, A.ring, A.head, ?_, ?_⟩
  · intro y
    have hadd := leaseCount_setConn hin
      ((s.conn slot).map fun c => { c with leased := some b, reqLen := n }) y
    have honce := A.once y
    simp only [hbind, Option.some.injEq] at hadd
    rw [List.count_cons] at honce
    have hdropped : (s.dropped ++ (s.lease slot).toList).count y =
        s.dropped.count y + if s.lease slot = some y then 1 else 0 := by
      rw [List.count_append]
      cases s.lease slot with
      | none => rfl
      | some z =>
        rw [Option.toList_some, List.count_singleton]
        simp only [beq_iff_eq, Option.some.injEq]
    change _ + s.delivered.countP _ + (s.setConn slot _).leaseCount y + s.lost.count y +
      (s.dropped ++ (s.lease slot).toList).count y + _ = _
    rw [hdropped]
    simp only [beq_iff_eq] at honce
    omega
  · have hadd := leases_setConn hin
      ((s.conn slot).map fun c => { c with leased := some b, reqLen := n })
    have hcounted := A.counted
    have hlength : (s.lease slot).toList.length = if (s.lease slot).isSome then 1 else 0 := by
      cases s.lease slot with
      | none => rfl
      | some z => rfl
    rw [hbind, Option.isSome_some, if_pos rfl] at hadd
    change s.recycle + (s.setConn slot _).leases + (s.dropped ++ (s.lease slot).toList).length =
      s.borrow + 1 + s.framed
    rw [List.length_append, hlength]
    omega

private theorem Inv.lose (I : s.Inv cfg (b :: hand)) :
    ({ s with lost := s.lost ++ [b] } : State).Inv cfg hand := by
  obtain ⟨h, items, A⟩ := I
  refine ⟨h, items, A.ring, A.head, ?_, A.counted⟩
  intro x
  have honce := A.once x
  rw [List.count_cons] at honce
  change _ + s.delivered.countP _ + s.leaseCount x + (s.lost ++ [b]).count x +
    s.dropped.count x + _ = _
  rw [List.count_append, List.count_singleton]
  omega

private theorem Inv.lend {x : Record} (I : s.Inv cfg hand) (hlend : s.ring.lend cfg s.head = some x)
    (slot n : ℕ) :
    ({ s with head := s.head + 1, delivered := s.delivered ++ [⟨slot, x.bid, n⟩] } : State).Inv
      cfg hand := by
  obtain ⟨h, items, A⟩ := I
  rw [A.head] at hlend
  obtain ⟨b, rest, rfl, rfl, hring⟩ := A.ring.lend hlend
  refine ⟨h + 1, rest, hring, ?_, ?_, A.counted⟩
  · rw [← ofNat_succ, ← A.head]
  · intro y
    have honce := A.once y
    rw [List.count_cons] at honce
    simp only [beq_iff_eq] at honce
    change _ + (s.delivered ++ [(⟨slot, b, n⟩ : Delivery)]).countP _ + s.leaseCount y +
      s.lost.count y + s.dropped.count y + _ = _
    rw [List.countP_append, List.countP_singleton]
    simp only [decide_eq_true_eq]
    omega

private theorem Inv.receive {j : ℕ} {d : Delivery} (I : s.Inv cfg hand)
    (hd : s.delivered[j]? = some d) :
    ({ s with delivered := s.delivered.eraseIdx j } : State).Inv cfg (d.bid :: hand) := by
  obtain ⟨h, items, A⟩ := I
  refine ⟨h, items, A.ring, A.head, ?_, A.counted⟩
  intro y
  have honce := A.once y
  rw [Lists.countP_eraseIdx hd] at honce
  simp only [decide_eq_true_eq] at honce
  change _ + (s.delivered.eraseIdx j).countP _ + s.leaseCount y + s.lost.count y +
    s.dropped.count y + _ = _
  rw [List.count_cons]
  simp only [beq_iff_eq]
  omega

theorem Inv.step {a : Act} (I : s.Inv cfg []) (hstep : s.step cfg a = some t) : t.Inv cfg [] := by
  rcases step_cases hstep with G | ⟨slot, n, x, -, hlend, rfl⟩ | ⟨j, o, d, -, hd, rfl⟩
  · exact I.gives G
  · exact I.lend hlend slot n
  · have hhand := I.receive hd
    rcases onRecvBr_cases cfg { s with delivered := s.delivered.eraseIdx j } d o with
      G | ⟨x, hx, G⟩ | ⟨-, G⟩
    · exact hhand.gives G
    · exact (hhand.hold hx d.n).gives G
    · exact hhand.lose.gives G

private theorem count_all (cfg : Config) (b : BitVec 16) :
    ((List.range cfg.entries).map (BitVec.ofNat 16)).count b =
      if b.toNat < 2 ^ cfg.k then 1 else 0 := by
  have hpow : 2 ^ cfg.k ≤ 2 ^ 15 := Nat.pow_le_pow_right (by decide) cfg.k_le
  have hlt : ∀ n ∈ List.range cfg.entries, n < 2 ^ 16 ∧ n < 2 ^ cfg.k := by
    intro n hn
    rw [List.mem_range, Config.entries] at hn
    omega
  have hnodup : ((List.range cfg.entries).map (BitVec.ofNat 16)).Nodup := by
    refine List.Nodup.map_on ?_ List.nodup_range
    intro m hm n hn heq
    have htoNat := congrArg BitVec.toNat heq
    rwa [BitVec.toNat_ofNat, BitVec.toNat_ofNat, Nat.mod_eq_of_lt (hlt m hm).1,
      Nat.mod_eq_of_lt (hlt n hn).1] at htoNat
  have hmem : b ∈ (List.range cfg.entries).map (BitVec.ofNat 16) ↔ b.toNat < 2 ^ cfg.k := by
    constructor
    · intro hb
      obtain ⟨n, hn, rfl⟩ := List.mem_map.mp hb
      rw [BitVec.toNat_ofNat, Nat.mod_eq_of_lt (hlt n hn).1]
      exact (hlt n hn).2
    · intro hb
      refine List.mem_map.mpr ⟨b.toNat, List.mem_range.mpr hb, ?_⟩
      rw [BitVec.ofNat_toNat, BitVec.setWidth_eq]
  rw [hnodup.count]
  simp only [hmem]

theorem inv_start : (start cfg).Inv cfg [] :=
  ⟨0, _, ringOk_fill le_rfl, rfl, count_all cfg, rfl⟩

theorem inv_run {acts : List Act} (hrun : run (step cfg) (start cfg) acts = some t) :
    t.Inv cfg [] :=
  invariant_of_step (fun I hstep => Inv.step I hstep) inv_start hrun

/-- A receive is armed on a slot without a lease and without another receive, and no handler
panics over a buffer. -/
def OneReceive (s : State) : Act → Prop
  | .lend slot _ => s.lease slot = none ∧ ∀ d ∈ s.delivered, d.slot ≠ slot
  | .recvBr _ o => o ≠ .panicked
  | _ => True

instance decidableOneReceive (s : State) : ∀ a, Decidable (s.OneReceive a)
  | .lend slot _ =>
    inferInstanceAs (Decidable (s.lease slot = none ∧ ∀ d ∈ s.delivered, d.slot ≠ slot))
  | .recvBr _ o => inferInstanceAs (Decidable (o ≠ .panicked))
  | .accept _ | .stage _ _ _ | .splitSent _ | .streamFinish _ | .close _ => isTrue trivial

/-- Who waits for octets has no lease. -/
structure Clear (s : State) : Prop where
  waiting : ∀ d ∈ s.delivered, s.lease d.slot = none
  apart : (s.delivered.map Delivery.slot).Nodup
  lost : s.lost = []
  dropped : s.dropped = []

private theorem conn_setConn_ne {i : ℕ} (hne : i ≠ slot) : (s.setConn slot c).conn i = s.conn i :=
    by
  rw [conn, setConn, List.getElem?_set_ne hne.symm, conn]

private theorem lease_setConn {i : ℕ} (hc : i = slot → c.bind Conn.leased = none)
    (hi : s.lease i = none) : (s.setConn slot c).lease i = none := by
  by_cases heq : i = slot
  · subst heq
    rcases Nat.lt_or_ge i s.conns.length with hin | hout
    · rw [lease_of_conns (s := s.setConn i c) (o := c) (List.getElem?_set_self hin)]
      exact hc rfl
    · rw [setConn_of_le hout]
      exact hi
  · rw [lease, conn_setConn_ne heq]
    exact hi

theorem Clear.gives (C : s.Clear) (G : Gives cfg s hand t hand') : t.Clear := by
  induction G with
  | refl s hand => exact C
  | trans _ _ ih ih' => exact ih' (ih C)
  | release _ hc =>
    exact ⟨fun d hd => lease_setConn (fun _ => hc) (C.waiting d hd), C.apart, C.lost, C.dropped⟩
  | recycle s b hand => exact ⟨C.waiting, C.apart, C.lost, C.dropped⟩
  | keep hc =>
    refine ⟨?_, C.apart, C.lost, C.dropped⟩
    intro d hd
    refine lease_setConn ?_ (C.waiting d hd)
    rintro rfl
    rw [hc]
    exact C.waiting d hd
  | append s hand =>
    refine ⟨?_, C.apart, C.lost, C.dropped⟩
    intro d hd
    change (((s.conns ++ [some Conn.new])[d.slot]?).getD none).bind Conn.leased = none
    rcases Nat.lt_or_ge d.slot s.conns.length with hin | hout
    · rw [List.getElem?_append_left hin]
      exact C.waiting d hd
    · rw [List.getElem?_append_right hout, List.getElem?_singleton]
      split
      · rfl
      · rfl
  | count s hand m n => exact ⟨C.waiting, C.apart, C.lost, C.dropped⟩

private theorem Clear.receive {j : ℕ} {d : Delivery} (C : s.Clear) (hd : s.delivered[j]? = some d) :
    ({ s with delivered := s.delivered.eraseIdx j } : State).Clear ∧ s.lease d.slot = none ∧
      ∀ d' ∈ s.delivered.eraseIdx j, d'.slot ≠ d.slot := by
  obtain ⟨before, after, hall, herase, -⟩ := Lists.exists_around hd
  have hapart := C.apart
  rw [hall, List.map_append, List.map_cons, List.nodup_middle, ← List.map_append,
    List.nodup_cons] at hapart
  refine ⟨⟨?_, ?_, C.lost, C.dropped⟩, C.waiting d (List.mem_of_getElem? hd), ?_⟩
  · intro d' hd'
    exact C.waiting d' (List.mem_of_mem_eraseIdx hd')
  · change ((s.delivered.eraseIdx j).map Delivery.slot).Nodup
    rw [herase]
    exact hapart.2
  · intro d' hd' heq
    rw [herase] at hd'
    exact hapart.1 (List.mem_map.mpr ⟨d', hd', heq⟩)

theorem Clear.hold (C : s.Clear) (hlease : s.lease slot = none)
    (hapart : ∀ d ∈ s.delivered, d.slot ≠ slot) (b : BitVec 16) (n : ℕ) :
    (s.hold slot b n).Clear where
  waiting := by
    intro d hd
    have hsame : (s.hold slot b n).conn d.slot = s.conn d.slot := conn_setConn_ne (hapart d hd)
    rw [lease, hsame]
    exact C.waiting d hd
  apart := C.apart
  lost := C.lost
  dropped := by
    rw [State.hold, hlease, C.dropped]
    rfl

theorem Clear.step {a : Act} (C : s.Clear) (hok : s.OneReceive a)
    (hstep : s.step cfg a = some t) : t.Clear := by
  rcases step_cases hstep with G | ⟨slot, n, x, rfl, -, rfl⟩ | ⟨j, o, d, rfl, hd, rfl⟩
  · exact C.gives G
  · obtain ⟨hnone, hother⟩ := hok
    refine ⟨?_, ?_, C.lost, C.dropped⟩
    · intro d hd
      rcases List.mem_append.mp hd with hold | hnew
      · exact C.waiting d hold
      · obtain rfl := List.mem_singleton.mp hnew
        exact hnone
    · change ((s.delivered ++ [(⟨slot, x.bid, n⟩ : Delivery)]).map Delivery.slot).Nodup
      rw [List.map_append, List.map_singleton, List.nodup_append_comm]
      refine List.nodup_cons.mpr ⟨?_, C.apart⟩
      intro hmem
      obtain ⟨d, hd, heq⟩ := List.mem_map.mp hmem
      exact hother d hd heq
  · obtain ⟨hclear, hlease, hapart⟩ := C.receive hd
    rcases onRecvBr_cases cfg { s with delivered := s.delivered.eraseIdx j } d o with
      G | ⟨x, -, G⟩ | ⟨hpanic, -⟩
    · exact hclear.gives G
    · exact (hclear.hold hlease hapart d.bid d.n).gives G
    · exact absurd hpanic hok

private theorem clear_start : (start cfg).Clear where
  waiting := by
    intro d hd
    cases hd
  apart := List.nodup_nil
  lost := rfl
  dropped := rfl

private theorem toNat_addr (hb : b.toNat < 2 ^ cfg.k) :
    (record cfg b).addr.toNat = cfg.bufs.toNat + b.toNat * cfg.bufSize := by
  have hmapped := cfg.mapped
  have hmul : b.toNat * cfg.bufSize ≤ 2 ^ cfg.k * cfg.bufSize :=
    Nat.mul_le_mul_right _ hb.le
  have hsize : b.toNat * (cfg.bufSize % 2 ^ 64) = b.toNat * cfg.bufSize := by
    have hpos : 1 * cfg.bufSize ≤ 2 ^ cfg.k * cfg.bufSize :=
      Nat.mul_le_mul_right _ (Nat.two_pow_pos _)
    rw [Nat.mod_eq_of_lt (by omega)]
  rw [record, BitVec.toNat_add, BitVec.toNat_mul, BitVec.toNat_ofNat,
    BitVec.toNat_setWidth_of_le (by decide), hsize, Nat.mod_eq_of_lt (by omega),
    Nat.mod_eq_of_lt (by omega)]

private theorem storage_apart {x : BitVec 16} (hb : b.toNat < 2 ^ cfg.k) (hx : x.toNat < 2 ^ cfg.k)
    (hne : b ≠ x) :
    (record cfg b).addr.toNat + cfg.bufSize ≤ (record cfg x).addr.toNat ∨
      (record cfg x).addr.toNat + cfg.bufSize ≤ (record cfg b).addr.toNat := by
  have hbelow : ∀ {m n : ℕ}, m < n → m * cfg.bufSize + cfg.bufSize ≤ n * cfg.bufSize := by
    intro m n hlt
    rw [← Nat.succ_mul]
    exact Nat.mul_le_mul_right _ hlt
  rw [toNat_addr hb, toNat_addr hx]
  rcases Nat.lt_or_gt_of_ne (fun heq => hne (BitVec.eq_of_toNat_eq heq)) with hlt | hgt
  · have hle := hbelow hlt
    omega
  · have hle := hbelow hgt
    omega

private theorem leaseCount_pos (hlease : s.lease slot = some b) : 0 < s.leaseCount b := by
  obtain ⟨x, hx, hb⟩ := Option.bind_eq_some_iff.mp hlease
  refine List.countP_pos_iff.mpr ⟨some x, List.mem_of_getElem? (conns_of_conn hx), ?_⟩
  exact decide_eq_true hb

def small : Config := ⟨2, 2048, 0x10000, by decide, by decide⟩

/-- A request served from its lease, one whose answer is spliced from it, one copied, and one that
the connection's end cuts off. -/
def served : List Act :=
  [.accept 0, .accept 1, .lend 0 300, .lend 1 40, .recvBr 1 .copied, .recvBr 0 (.borrowed true),
    .stage 0 false false, .lend 0 200, .recvBr 0 (.borrowed true), .lend 1 60, .stage 0 false true,
    .recvBr 0 (.framed true), .splitSent 0, .lend 0 10, .recvBr 0 (.borrowed true), .close 0,
    .close 1]

/-- In every order of accepts, receives, answers and closes, each buffer of a shard is in one
place; what the kernel may lend is the records of the free buffers, and none of them shares an
octet with the storage of a buffer that a connection leases. A lease is counted back once. -/
theorem every_buffer_in_one_place {acts : List Act}
    (hrun : run (step cfg) (start cfg) acts = some s) :
    (∀ r ∈ s.ring.free cfg s.head, r = record cfg r.bid) ∧
      (∀ b : BitVec 16, ((s.ring.free cfg s.head).map Record.bid).count b +
        s.delivered.countP (fun d => d.bid = b) + s.leaseCount b + s.lost.count b +
          s.dropped.count b = if b.toNat < 2 ^ cfg.k then 1 else 0) ∧
      (∀ r ∈ s.ring.free cfg s.head, ∀ slot b, s.lease slot = some b →
        r.addr.toNat + cfg.bufSize ≤ (record cfg b).addr.toNat ∨
          (record cfg b).addr.toNat + cfg.bufSize ≤ r.addr.toNat) ∧
      s.recycle + s.leases + s.dropped.length = s.borrow + s.framed := by
  obtain ⟨h, items, A⟩ := inv_run hrun
  have hfree : s.ring.free cfg s.head = items.map (record cfg) := by
    rw [A.head]
    exact A.ring.free_eq
  have hbids : (items.map (record cfg)).map Record.bid = items := by
    rw [List.map_map]
    exact List.map_id items
  rw [hfree, hbids]
  refine ⟨?_, ?_, ?_, A.counted⟩
  · intro r hr
    obtain ⟨b, -, rfl⟩ := List.mem_map.mp hr
    rfl
  · intro b
    have honce := A.once b
    rwa [List.count_nil, Nat.add_zero] at honce
  · intro r hr slot b hlease
    obtain ⟨x, hx, rfl⟩ := List.mem_map.mp hr
    have hpos := leaseCount_pos hlease
    have hxpos := List.count_pos_iff.mpr hx
    have hb : b.toNat < 2 ^ cfg.k := by
      by_contra hge
      have honce := A.once b
      rw [if_neg hge] at honce
      omega
    have hxlt : x.toNat < 2 ^ cfg.k := by
      by_contra hge
      have honce := A.once x
      rw [if_neg hge] at honce
      omega
    refine storage_apart hxlt hb ?_
    rintro rfl
    have honce := A.once x
    rw [if_pos hb] at honce
    omega

theorem every_buffer_in_one_place_leased :
    ∃ s, run (step small) (start small) (served.take 10) = some s ∧ s.lease 0 = some 2 ∧
      (s.ring.free small s.head).map Record.bid = [1, 0] ∧
      s.recycle + s.leases + s.dropped.length = s.borrow + s.framed := by
  have hends : ((run (step small) (start small) (served.take 10)).map fun s =>
      (s.lease 0, (s.ring.free small s.head).map Record.bid)) = some (some 2, [1, 0]) := by
    decide +kernel
  obtain ⟨s, hrun, hs⟩ := Option.map_eq_some_iff.mp hends
  exact ⟨s, hrun, congrArg Prod.fst hs, congrArg Prod.snd hs,
    (every_buffer_in_one_place hrun).2.2.2⟩

/-- With one receive at a time on a slot and no panic over a buffer, none is lost: while requests
are served the counters differ by the leases held and the requests framed with a configuration,
and when every connection is closed and every completion handled the ring has all its buffers. -/
theorem leases_come_back {acts : List Act}
    (hok : Meets (step cfg) OneReceive (start cfg) acts)
    (hrun : run (step cfg) (start cfg) acts = some s) :
    s.lost = [] ∧ s.dropped = [] ∧ s.recycle + s.leases = s.borrow + s.framed ∧
      (s.delivered = [] → (∀ i, s.conn i = none) → s.recycle = s.borrow + s.framed ∧
        ((s.ring.free cfg s.head).map Record.bid).Perm
          ((List.range cfg.entries).map (BitVec.ofNat 16))) := by
  have hclear : s.Clear := invariant_of_meets (fun C hok hstep => Clear.step C hok hstep)
    clear_start hok hrun
  obtain ⟨h, items, A⟩ := inv_run hrun
  have hcounted := A.counted
  rw [hclear.dropped, List.length_nil, Nat.add_zero] at hcounted
  refine ⟨hclear.lost, hclear.dropped, hcounted, ?_⟩
  intro hdelivered hclosed
  have hnone : ∀ c ∈ s.conns, c = none := by
    intro c hc
    obtain ⟨i, hi⟩ := List.mem_iff_getElem?.mp hc
    have hconn := hclosed i
    rwa [conn, hi, Option.getD_some] at hconn
  have hleases : s.leases = 0 := by
    refine List.countP_eq_zero.mpr fun c hc => ?_
    rw [hnone c hc]
    exact Bool.false_ne_true
  have hleaseCount : ∀ b, s.leaseCount b = 0 := by
    intro b
    refine List.countP_eq_zero.mpr fun c hc => ?_
    rw [hnone c hc]
    exact fun heq => absurd (of_decide_eq_true heq).symm (Option.some_ne_none b)
  have hfree : (s.ring.free cfg s.head).map Record.bid = items := by
    rw [A.head, A.ring.free_eq, List.map_map]
    exact List.map_id items
  refine ⟨by omega, ?_⟩
  rw [hfree]
  refine List.perm_iff_count.mpr fun b => ?_
  have honce := A.once b
  rw [hdelivered, hleaseCount, hclear.lost, hclear.dropped] at honce
  rw [count_all, ← honce]
  rfl

theorem leases_come_back_served :
    ∃ s, run (step small) (start small) served = some s ∧ s.lost = [] ∧
      s.recycle = s.borrow + s.framed ∧
      ((s.ring.free small s.head).map Record.bid).Perm
        ((List.range small.entries).map (BitVec.ofNat 16)) := by
  have hends : ((run (step small) (start small) served).map fun s => (s.delivered, s.conns)) =
      some ([], [none, none]) := by
    decide +kernel
  have hok : Meets (step small) OneReceive (start small) served := by
    decide +kernel
  obtain ⟨s, hrun, hs⟩ := Option.map_eq_some_iff.mp hends
  have hclosed : ∀ i, s.conn i = none := by
    intro i
    have hconns : s.conns = [none, none] := congrArg Prod.snd hs
    rw [conn, hconns]
    rcases i with _ | _ | i
    · rfl
    · rfl
    · rfl
  obtain ⟨hlost, -, -, hall⟩ := leases_come_back hok hrun
  obtain ⟨hcount, hperm⟩ := hall (congrArg Prod.fst hs) hclosed
  exact ⟨s, hrun, hlost, hcount, hperm⟩

end State

end DragonsNet.Dataplane.BufferLeases
