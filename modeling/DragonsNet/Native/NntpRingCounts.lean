/- GID: DragonsNet/Native/NntpRingCounts
   source: native/nntp_host.c, native/uring.h
   digest: The ring's counts and owners are exact in every run, across the nested reaps. -/

import DragonsNet.Lib.Lists
import DragonsNet.Native.NntpRing

set_option autoImplicit false

namespace DragonsNet.Native.NntpRingCounts

open Lib.Lists (countP_eraseIdx)
open Lib.Runs (run run_cons invariant_of_step)
open Native.NntpRing

def descriptor (c : Conn) : Option ℕ := c.fd.or c.closingFd

def ofIndex (i : ℕ) (f : Flight) : Bool := f.kind.ofConn && f.slot == i

def atPlace (k : ℕ) (f : Flight) : Bool := f.kind == .linger && f.slot == k

structure Accounts (n : ℕ) (conns : ℕ → Conn) (flights : List Flight) : Prop where
  ops : ∀ i, (conns i).ops = flights.countP (ofIndex i)
  owns : ∀ f ∈ flights, f.kind.ofConn = true →
    f.slot < n ∧ f.gen = (conns f.slot).gen ∧ descriptor (conns f.slot) = some f.fd
  one : ∀ i, (conns i).fd.isSome → (conns i).closingFd = none

structure Lingers (m : ℕ) (places : ℕ → Place) (flights : List Flight) : Prop where
  receives : ∀ k, flights.countP (atPlace k) = (places k).receiving.toNat
  owns : ∀ f ∈ flights, f.kind = .linger →
    f.slot < m ∧ f.gen = (places f.slot).since ∧ (places f.slot).fd = some f.fd

def holds : Frame → Option (ℕ × ℕ)
  | .unlinger k fd => some (k, fd)
  | .nested k fd => some (k, fd)
  | _ => none

def inQueue : Frame → Bool
  | .none | .taking => false
  | _ => true

structure Owners (m : ℕ) (conns : ℕ → Conn) (places : ℕ → Place) (toLinger : List Queued)
    (frame : Frame) (owner : ℕ → Owner) (nextFd : ℕ) : Prop where
  conn : ∀ i fd, descriptor (conns i) = some fd → owner fd = .conn i
  place : ∀ k fd, (places k).fd = some fd → owner fd = .place k
  queued : ∀ q ∈ toLinger, owner q.fd = .queued
  moving : ∀ k fd, holds frame = some (k, fd) → owner fd = .moving ∧ k < m
  fresh : ∀ fd, nextFd ≤ fd → owner fd = .closed

/-- An index in `to_linger` has no descriptor of its own until the queue is taken. -/
structure Queue (n : ℕ) (conns : ℕ → Conn) (toLinger : List Queued) : Prop where
  gone : ∀ q ∈ toLinger, q.index < n ∧ descriptor (conns q.index) = none
  indexes : (toLinger.map Queued.index).Nodup
  fds : (toLinger.map Queued.fd).Nodup

structure Inv (L : Limits) (s : State) : Prop where
  accounts : Accounts L.conns s.conns s.flights
  lingers : Lingers L.lingering s.places s.flights
  owners : Owners L.lingering s.conns s.places s.toLinger s.frame s.owner s.nextFd
  queue : Queue L.conns s.conns s.toLinger
  flag : s.lingeringNow = inQueue s.frame
  drained : s.turn = .next → s.frame = .none → s.toLinger = []
  clean : s.violation = none ∧ s.busyClose = false ∧ s.misdelivered = false

theorem start_inv (L : Limits) : Inv L start where
  accounts := ⟨fun _ => rfl, nofun, nofun⟩
  lingers := ⟨fun _ => rfl, nofun⟩
  owners := ⟨nofun, nofun, nofun, nofun, fun _ _ => rfl⟩
  queue := ⟨nofun, List.nodup_nil, List.nodup_nil⟩
  flag := rfl
  drained _ _ := rfl
  clean := ⟨rfl, rfl, rfl⟩

variable {L : Limits} {s t : State} {i k fd : ℕ} {c : Conn} {p : Place} {conns : ℕ → Conn}
  {flights : List Flight} {n : ℕ} {f : Flight} {a : Action}

theorem tokenKind_token (kind slot gen : ℕ) : tokenKind (token kind slot gen) = kind % 2 ^ 8 := by
  simp only [tokenKind, token]
  omega

theorem tokenSlot_token (kind slot gen : ℕ) : tokenSlot (token kind slot gen) = slot % 2 ^ 24 := by
  simp only [tokenSlot, token]
  omega

theorem tokenGen_token (kind slot gen : ℕ) : tokenGen (token kind slot gen) = gen % 2 ^ 32 := by
  simp only [tokenGen, token]
  omega

private theorem ofCode_token (f : Flight) : Kind.ofCode (tokenKind f.token) = some f.kind := by
  rw [Flight.token, tokenKind_token]
  cases f.kind <;> rfl

theorem Inv.not_busy (h : Inv L s) (hconn : ∀ i, s.owner fd = .conn i → (s.conns i).ops = 0)
    (hplace : ∀ k, s.owner fd = .place k → (s.places k).receiving = false) :
    s.busy fd = false := by
  by_contra hbusy
  simp only [State.busy, Bool.not_eq_false, List.any_eq_true, Bool.and_eq_true, beq_iff_eq,
    Bool.or_eq_true] at hbusy
  obtain ⟨f, hf, rfl, hkind | hkind⟩ := hbusy
  · have hown := h.owners.conn f.slot f.fd (h.accounts.owns f hf hkind).2.2
    have hzero := hconn f.slot hown
    rw [h.accounts.ops, List.countP_eq_zero] at hzero
    exact hzero f hf (by simp [ofIndex, hkind])
  · have hown := h.owners.place f.slot f.fd (h.lingers.owns f hf hkind).2.2
    have hzero := h.lingers.receives f.slot
    rw [hplace f.slot hown, Bool.toNat_false, List.countP_eq_zero] at hzero
    exact hzero f hf (by simp [atPlace, hkind])

private theorem descriptor_update (hd : descriptor c = descriptor (conns i)) (j : ℕ) :
    descriptor (Function.update conns i c j) = descriptor (conns j) := by
  rcases eq_or_ne j i with rfl | hji
  · simpa using hd
  · rw [Function.update_of_ne hji]

theorem Inv.setConn (h : Inv L s) (hops : c.ops = (s.conns i).ops) (hgen : c.gen = (s.conns i).gen)
    (hfd : c.fd = (s.conns i).fd) (hclosing : c.closingFd = (s.conns i).closingFd) :
    Inv L (s.setConn i c) := by
  have hd : descriptor c = descriptor (s.conns i) := by simp only [descriptor, hfd, hclosing]
  have hcell : ∀ j, (Function.update s.conns i c j).ops = (s.conns j).ops ∧
      (Function.update s.conns i c j).gen = (s.conns j).gen ∧
      (Function.update s.conns i c j).fd = (s.conns j).fd ∧
      (Function.update s.conns i c j).closingFd = (s.conns j).closingFd := by
    intro j
    rcases eq_or_ne j i with rfl | hji
    · simp [hops, hgen, hfd, hclosing]
    · simp [Function.update_of_ne hji]
  refine ⟨⟨?_, ?_, ?_⟩, h.lingers, ⟨?_, h.owners.place, h.owners.queued, h.owners.moving,
    h.owners.fresh⟩, ⟨?_, h.queue.indexes, h.queue.fds⟩, h.flag, h.drained, h.clean⟩
  · intro j
    exact (hcell j).1.trans (h.accounts.ops j)
  · intro f hf hk
    simpa only [State.setConn, (hcell f.slot).2.1, descriptor_update hd] using
      h.accounts.owns f hf hk
  · intro j hj
    simp only [State.setConn, (hcell j).2.2.1, (hcell j).2.2.2] at hj ⊢
    exact h.accounts.one j hj
  · intro j x hx
    simp only [State.setConn, descriptor_update hd] at hx
    exact h.owners.conn j x hx
  · intro q hq
    simpa only [State.setConn, descriptor_update hd] using h.queue.gone q hq

private theorem Inv.submitConn (kind : Kind) (h : Inv L s) (hk : kind.ofConn = true)
    (hi : i < L.conns)
    (hops : c.ops = (s.conns i).ops + 1) (hgen : c.gen = (s.conns i).gen)
    (hd : descriptor (s.conns i) = some fd) (hd' : descriptor c = some fd)
    (hone : c.fd.isSome → c.closingFd = none) :
    Inv L ((s.setConn i c).submit ⟨kind, i, c.gen, fd⟩) := by
  have hsame : descriptor c = descriptor (s.conns i) := hd'.trans hd.symm
  have hnot : (kind == .linger) = false := by cases kind <;> simp_all [Kind.ofConn]
  refine ⟨⟨?_, ?_, ?_⟩, ⟨?_, ?_⟩, ⟨?_, h.owners.place, h.owners.queued, h.owners.moving,
    h.owners.fresh⟩, ⟨?_, h.queue.indexes, h.queue.fds⟩, h.flag, h.drained, h.clean⟩
  · intro j
    have hj := h.accounts.ops j
    simp only [State.submit, State.setConn, List.countP_append, List.countP_singleton, ofIndex, hk,
      Bool.true_and, beq_iff_eq] at hj ⊢
    rcases eq_or_ne j i with rfl | hji
    · simp [hops, hj]
    · simp [Function.update_of_ne hji, hj, hji.symm]
  · intro f hf hkf
    simp only [State.submit, State.setConn, List.mem_append, List.mem_singleton] at hf ⊢
    rw [descriptor_update hsame]
    rcases hf with hf | rfl
    · obtain ⟨hlt, hg, hfd⟩ := h.accounts.owns f hf hkf
      refine ⟨hlt, ?_, hfd⟩
      rcases eq_or_ne f.slot i with hslot | hslot
      · rw [hg, hslot, Function.update_self, hgen]
      · rw [hg, Function.update_of_ne hslot]
    · exact ⟨hi, by simp, hd⟩
  · intro j hj
    simp only [State.submit, State.setConn] at hj ⊢
    rcases eq_or_ne j i with rfl | hji
    · simp only [Function.update_self] at hj ⊢
      exact hone hj
    · simp only [Function.update_of_ne hji] at hj ⊢
      exact h.accounts.one j hj
  · intro j
    simp only [State.submit, State.setConn, List.countP_append, List.countP_singleton, atPlace, hnot,
      Bool.false_and, Bool.false_eq_true, if_false, Nat.add_zero]
    exact h.lingers.receives j
  · intro f hf hkf
    simp only [State.submit, State.setConn, List.mem_append, List.mem_singleton] at hf ⊢
    rcases hf with hf | rfl
    · exact h.lingers.owns f hf hkf
    · have hkf : kind = .linger := hkf
      simp [hkf] at hnot
  · intro j x hx
    simp only [State.submit, State.setConn, descriptor_update hsame] at hx
    exact h.owners.conn j x hx
  · intro q hq
    simpa only [State.submit, State.setConn, descriptor_update hsame] using h.queue.gone q hq

theorem Owners.pass {m nextFd nextFd' : ℕ} {conns conns' : ℕ → Conn} {places places' : ℕ → Place}
    {toLinger toLinger' : List Queued} {frame frame' : Frame} {owner : ℕ → Owner} (o : Owner)
    (h : Owners m conns places toLinger frame owner nextFd)
    (hconn : ∀ j x, descriptor (conns' j) = some x →
      x = fd ∧ o = .conn j ∨ x ≠ fd ∧ descriptor (conns j) = some x)
    (hplace : ∀ j x, (places' j).fd = some x →
      x = fd ∧ o = .place j ∨ x ≠ fd ∧ (places j).fd = some x)
    (hqueue : ∀ q ∈ toLinger', q.fd = fd ∧ o = .queued ∨ q.fd ≠ fd ∧ q ∈ toLinger)
    (hframe : ∀ j x, holds frame' = some (j, x) →
      x = fd ∧ o = .moving ∧ j < m ∨ x ≠ fd ∧ holds frame = some (j, x))
    (hlt : fd < nextFd') (hle : nextFd ≤ nextFd') :
    Owners m conns' places' toLinger' frame' (Function.update owner fd o) nextFd' := by
  refine ⟨?_, ?_, ?_, ?_, ?_⟩
  · intro j x hx
    rcases hconn j x hx with ⟨rfl, ho⟩ | ⟨hne, hx⟩
    · rw [Function.update_self, ho]
    · rw [Function.update_of_ne hne, h.conn j x hx]
  · intro j x hx
    rcases hplace j x hx with ⟨rfl, ho⟩ | ⟨hne, hx⟩
    · rw [Function.update_self, ho]
    · rw [Function.update_of_ne hne, h.place j x hx]
  · intro q hq
    rcases hqueue q hq with ⟨rfl, ho⟩ | ⟨hne, hq⟩
    · rw [Function.update_self, ho]
    · rw [Function.update_of_ne hne, h.queued q hq]
  · intro j x hx
    rcases hframe j x hx with ⟨rfl, ho, hj⟩ | ⟨hne, hx⟩
    · rw [Function.update_self, ho]
      exact ⟨rfl, hj⟩
    · rw [Function.update_of_ne hne]
      exact h.moving j x hx
  · intro x hx
    rw [Function.update_of_ne (by omega)]
    exact h.fresh x (by omega)

section Claims

variable {m nextFd : ℕ} {conns : ℕ → Conn} {places : ℕ → Place} {toLinger : List Queued}
variable {frame : Frame} {owner : ℕ → Owner} {o : Owner}

private theorem Owners.conn_ne (h : Owners m conns places toLinger frame owner nextFd)
    (hown : owner fd = o) (ho : ∀ j, o ≠ .conn j) (P : ℕ → Prop) (j x : ℕ)
    (hx : descriptor (conns j) = some x) : x = fd ∧ P j ∨ x ≠ fd ∧ descriptor (conns j) = some x := by
  refine .inr ⟨?_, hx⟩
  rintro rfl
  exact ho j (hown.symm.trans (h.conn j x hx))

private theorem Owners.place_ne (h : Owners m conns places toLinger frame owner nextFd)
    (hown : owner fd = o) (ho : ∀ j, o ≠ .place j) (P : ℕ → Prop) (j x : ℕ)
    (hx : (places j).fd = some x) : x = fd ∧ P j ∨ x ≠ fd ∧ (places j).fd = some x := by
  refine .inr ⟨?_, hx⟩
  rintro rfl
  exact ho j (hown.symm.trans (h.place j x hx))

private theorem Owners.queue_ne (h : Owners m conns places toLinger frame owner nextFd)
    (hown : owner fd = o) (ho : o ≠ .queued) (P : Prop) (q : Queued) (hq : q ∈ toLinger) :
    q.fd = fd ∧ P ∨ q.fd ≠ fd ∧ q ∈ toLinger := by
  refine .inr ⟨?_, hq⟩
  rintro rfl
  exact ho (hown.symm.trans (h.queued q hq))

private theorem Owners.frame_ne (h : Owners m conns places toLinger frame owner nextFd)
    (hown : owner fd = o) (ho : o ≠ .moving) (P : ℕ → Prop) (j x : ℕ)
    (hx : holds frame = some (j, x)) : x = fd ∧ P j ∨ x ≠ fd ∧ holds frame = some (j, x) := by
  refine .inr ⟨?_, hx⟩
  rintro rfl
  exact ho (hown.symm.trans (h.moving j x hx).1)

theorem Owners.lt (h : Owners m conns places toLinger frame owner nextFd) (hown : owner fd = o)
    (ho : o ≠ .closed) : fd < nextFd := by
  by_contra hge
  exact ho (hown.symm.trans (h.fresh fd (by omega)))

end Claims

theorem Accounts.idle (h : Accounts n conns flights) (hz : (conns i).ops = 0) (hops : c.ops = 0)
    (hone : c.fd.isSome → c.closingFd = none) : Accounts n (Function.update conns i c) flights := by
  have hnone : ∀ f ∈ flights, f.kind.ofConn = true → f.slot ≠ i := by
    rintro f hf hk rfl
    rw [h.ops, List.countP_eq_zero] at hz
    exact hz f hf (by simp [ofIndex, hk])
  refine ⟨?_, ?_, ?_⟩
  · intro j
    rcases eq_or_ne j i with rfl | hji
    · rw [Function.update_self, hops, ← h.ops, hz]
    · rw [Function.update_of_ne hji, h.ops]
  · intro f hf hk
    rw [Function.update_of_ne (hnone f hf hk)]
    exact h.owns f hf hk
  · intro j hj
    rcases eq_or_ne j i with rfl | hji
    · simp only [Function.update_self] at hj ⊢
      exact hone hj
    · simp only [Function.update_of_ne hji] at hj ⊢
      exact h.one j hj

theorem Queue.room {toLinger : List Queued} (h : Queue n conns toLinger) (hi : i < n)
    (hd : (descriptor (conns i)).isSome) : i ∉ toLinger.map Queued.index ∧ toLinger.length < n := by
  have hnot : i ∉ toLinger.map Queued.index := by
    intro hmem
    obtain ⟨q, hq, rfl⟩ := List.mem_map.mp hmem
    simp [(h.gone q hq).2] at hd
  refine ⟨hnot, ?_⟩
  have hsub : (i :: toLinger.map Queued.index) ⊆ List.range n := by
    intro x hx
    rcases List.mem_cons.mp hx with rfl | hx
    · exact List.mem_range.mpr hi
    · obtain ⟨q, hq, rfl⟩ := List.mem_map.mp hx
      exact List.mem_range.mpr (h.gone q hq).1
  have hlen := (List.subperm_of_subset (List.nodup_cons.mpr ⟨hnot, h.indexes⟩) hsub).length_le
  simp only [List.length_cons, List.length_map, List.length_range] at hlen
  omega

theorem Inv.letGo (h : Inv L s) (hi : i < L.conns) (hd : descriptor (s.conns i) = some fd)
    (hz : (s.conns i).ops = 0) (hops : c.ops = 0) (hc : descriptor c = none)
    (hpush : c.lingers = true → s.turn = .next → s.frame ≠ .none) :
    Inv L (letGo L (s.setConn i c) i fd) := by
  have hown := h.owners.conn i fd hd
  have hlt := h.owners.lt hown nofun
  obtain ⟨hnew, hroom⟩ := h.queue.room hi (by simp [hd])
  have hbusy : (s.setConn i c).busy fd = false := by
    refine h.not_busy (fun j hj => ?_) (fun j hj => ?_)
    · obtain rfl := Owner.conn.inj (hown.symm.trans hj)
      exact hz
    · exact absurd (hown.symm.trans hj) nofun
  have hclean : s.violation = none ∧ (s.busyClose || (s.setConn i c).busy fd) = false ∧
      s.misdelivered = false := ⟨h.clean.1, by rw [hbusy, h.clean.2.1]; rfl, h.clean.2.2⟩
  have hconn : ∀ o j x, descriptor (Function.update s.conns i c j) = some x →
      x = fd ∧ o = Owner.conn j ∨ x ≠ fd ∧ descriptor (s.conns j) = some x := by
    intro o j x hx
    rcases eq_or_ne j i with rfl | hji
    · rw [Function.update_self, hc] at hx
      cases hx
    · rw [Function.update_of_ne hji] at hx
      refine .inr ⟨?_, hx⟩
      rintro rfl
      exact hji (Owner.conn.inj ((h.owners.conn j x hx).symm.trans hown))
  have hgone : ∀ q ∈ s.toLinger, q.index < L.conns ∧
      descriptor (Function.update s.conns i c q.index) = none := by
    intro q hq
    have hqi : q.index ≠ i := by
      intro hqi
      exact hnew (hqi ▸ List.mem_map_of_mem hq)
    rw [Function.update_of_ne hqi]
    exact h.queue.gone q hq
  have hfull : (s.toLinger.length == L.conns) = false := by
    simpa using hroom.ne
  have hidle : Accounts L.conns (Function.update s.conns i c) s.flights := by
    refine h.accounts.idle hz hops fun _ => ?_
    rw [descriptor, Option.or_eq_none_iff] at hc
    exact hc.2
  unfold NntpRing.letGo
  simp only [State.setConn, Function.update_self, hfull, Bool.and_false, Bool.false_eq_true,
    if_false]
  split
  · rename_i hl
    refine ⟨hidle, h.lingers, ?_, ⟨?_, ?_, ?_⟩, h.flag, ?_, hclean⟩
    · refine h.owners.pass .queued (hconn _) (h.owners.place_ne hown nofun _) ?_
        (h.owners.frame_ne hown nofun _) hlt le_rfl
      intro q hq
      rcases List.mem_cons.mp hq with rfl | hq
      · exact .inl ⟨rfl, rfl⟩
      · exact h.owners.queue_ne hown nofun _ q hq
    · intro q hq
      rcases List.mem_cons.mp hq with rfl | hq
      · exact ⟨hi, by simp [State.pass, hc]⟩
      · exact hgone q hq
    · exact List.nodup_cons.mpr ⟨hnew, h.queue.indexes⟩
    · refine List.nodup_cons.mpr ⟨?_, h.queue.fds⟩
      intro hmem
      obtain ⟨q, hq, hfd⟩ := List.mem_map.mp hmem
      have hqueued := h.owners.queued q hq
      rw [show q.fd = fd from hfd, hown] at hqueued
      cases hqueued
    · intro hturn hframe
      exact absurd hframe (hpush hl hturn)
  · exact ⟨hidle, h.lingers, h.owners.pass .closed (hconn _)
      (h.owners.place_ne hown nofun _) (h.owners.queue_ne hown nofun _)
      (h.owners.frame_ne hown nofun _) hlt le_rfl, ⟨hgone, h.queue.indexes, h.queue.fds⟩, h.flag,
      h.drained, hclean⟩

private theorem letGo_conns : (letGo L s i fd).conns = s.conns := by
  unfold NntpRing.letGo
  split_ifs <;> rfl

theorem Inv.retire (h : Inv L s) (hi : i < L.conns) (hfd : (s.conns i).fd = some fd)
    (lingers : Bool) (hpush : lingers = true → s.turn = .next → s.frame ≠ .none) :
    Inv L (retire L s i fd lingers) ∧ ((retire L s i fd lingers).conns i).fd = none := by
  have hone := h.accounts.one i (by simp [hfd])
  have hd : descriptor (s.conns i) = some fd := by simp [descriptor, hfd]
  unfold NntpRing.retire
  dsimp only
  split
  · rename_i hz
    exact ⟨h.letGo hi hd hz hz (by simp [descriptor, hone]) hpush, by simp [letGo_conns, State.setConn]⟩
  · exact ⟨h.submitConn _ rfl hi rfl rfl hd rfl nofun, by simp [State.submit, State.setConn]⟩

theorem Inv.freeIndex (h : Inv L s) (hi : i < L.conns) : Inv L (freeIndex L s i) := by
  have hplain : Inv L (s.setConn i { s.conns i with tls := false }) := h.setConn rfl rfl rfl rfl
  unfold NntpRing.freeIndex
  dsimp only
  split
  · rename_i hnone
    exact hplain.setConn rfl rfl hnone.symm rfl
  · rename_i fd hsome
    obtain ⟨hretired, hnone⟩ := hplain.retire hi hsome false nofun
    exact hretired.setConn rfl rfl hnone.symm rfl

private theorem Accounts.ops_eq_zero (h : Accounts n conns flights)
    (hd : descriptor (conns i) = none) :
    (conns i).ops = 0 := by
  rw [h.ops, List.countP_eq_zero]
  intro f hf hof
  simp only [ofIndex, Bool.and_eq_true, beq_iff_eq] at hof
  have hown := (h.owns f hf hof.1).2.2
  rw [hof.2, hd] at hown
  cases hown

private theorem descriptor_of_usable (hu : usable s i = true) : descriptor (s.conns i) = none := by
  simp only [usable, Bool.and_eq_true, Option.isNone_iff_eq_none] at hu
  simp [descriptor, hu.1.1.1, hu.1.1.2]

theorem Inv.admitConn {tls : Bool} (h : Inv L s) (hempty : s.toLinger = [])
    (hstep : admitConn L s tls = some t) : Inv L t := by
  unfold NntpRing.admitConn at hstep
  split at hstep
  · cases hstep
  · rename_i i hfind
    obtain rfl := Option.some.inj hstep
    have hd := descriptor_of_usable (List.find?_some hfind)
    have hown := h.owners.fresh s.nextFd le_rfl
    refine ⟨h.accounts.idle (h.accounts.ops_eq_zero hd) rfl fun _ => rfl, h.lingers, ?_, ?_, h.flag,
      h.drained, h.clean⟩
    · refine h.owners.pass (.conn i) ?_ (h.owners.place_ne hown nofun _)
        (h.owners.queue_ne hown nofun _) (h.owners.frame_ne hown nofun _) (Nat.lt_succ_self _)
        (Nat.le_succ _)
      intro j x hx
      rcases eq_or_ne j i with rfl | hji
      · simp only [State.setConn, Function.update_self] at hx
        exact .inl ⟨(Option.some.inj hx).symm, rfl⟩
      · simp only [State.setConn, Function.update_of_ne hji] at hx
        exact h.owners.conn_ne hown nofun (Owner.conn i = Owner.conn ·) j x hx
    · simp only [State.setConn, hempty]
      exact ⟨nofun, List.nodup_nil, List.nodup_nil⟩

theorem Inv.interest (h : Inv L s) (hi : i < L.conns) : Inv L (interest s i) := by
  unfold NntpRing.interest
  dsimp only
  split
  · exact h
  · rename_i fd hfd
    have hd : descriptor (s.conns i) = some fd := by simp [descriptor, hfd]
    have hone := h.accounts.one i (by simp [hfd])
    split
    · exact h.submitConn _ rfl hi rfl rfl hd hd fun _ => hone
    · exact h

theorem Inv.giveOut (h : Inv L s) (hi : i < L.conns) (r : Report) : Inv L (giveOut L s i r) := by
  unfold NntpRing.giveOut
  dsimp only
  split
  · exact h.freeIndex hi
  split
  · exact h
  · split
    · have hread := h.setConn (i := i) (c := { s.conns i with
        input := false, reading := (s.conns i).reading && decide ((s.conns i).got ≠ 0) })
        rfl rfl rfl rfl
      split
      · exact hread.freeIndex hi
      · exact hread
    · exact h
  · exact h.setConn rfl rfl rfl rfl
  · exact h.freeIndex hi

theorem Inv.sent (h : Inv L s) (hi : i < L.conns) (failed whole read : Bool) :
    Inv L (sent L s i failed whole read) := by
  unfold NntpRing.sent
  dsimp only
  refine Inv.setConn ?_ rfl rfl rfl rfl
  split
  · have hplain : Inv L (s.setConn i { s.conns i with tls := false }) := h.setConn rfl rfl rfl rfl
    refine Inv.setConn ?_ rfl rfl rfl rfl
    split
    · exact hplain
    · rename_i fd hfd
      exact (hplain.retire hi hfd false nofun).1
  · exact h

theorem Inv.act {a : Act} (h : Inv L s) (hi : i < L.conns) (hturn : s.turn ≠ .next) :
    Inv L (act L s i a) := by
  unfold NntpRing.act
  dsimp only
  split
  · exact h
  rename_i fd hfd
  have hd : descriptor (s.conns i) = some fd := by simp [descriptor, hfd]
  have hone := h.accounts.one i (by simp [hfd])
  split
  · exact h
  cases a with
  | none => exact h
  | verify gen => exact h.setConn rfl rfl rfl rfl
  | send gen len read failed whole =>
    dsimp only
    split
    · have hsub := h.submitConn (c := { s.conns i with ops := (s.conns i).ops + 1 }) .send
        rfl hi rfl rfl hd hd fun _ => hone
      exact ⟨hsub.accounts, hsub.lingers, hsub.owners, hsub.queue, hsub.flag, hsub.drained, hsub.clean⟩
    · exact h.sent hi failed whole read
  | close gen gracefully =>
    have hplain : Inv L (s.setConn i { s.conns i with tls := false }) := h.setConn rfl rfl rfl rfl
    have hfd' : ((s.setConn i { s.conns i with tls := false }).conns i).fd = some fd := by
      simpa [State.setConn] using hfd
    exact (hplain.retire hi hfd' gracefully fun _ hnext => absurd hnext hturn).1.freeIndex hi

theorem Inv.finishSend (h : Inv L s) (hi : i < L.conns) : Inv L (finishSend L s i) := by
  unfold NntpRing.finishSend
  split
  · exact h
  · exact Inv.sent (s := { s with batched := Function.update s.batched i none })
      ⟨h.accounts, h.lingers, h.owners, h.queue, h.flag, h.drained, h.clean⟩ hi _ _ _

theorem Lingers.idle {m : ℕ} {places : ℕ → Place} (h : Lingers m places flights)
    (hz : (places k).receiving = false) (hp : p.receiving = false) :
    Lingers m (Function.update places k p) flights := by
  have hcount := h.receives k
  rw [hz, Bool.toNat_false] at hcount
  have hnone : ∀ f ∈ flights, f.kind = .linger → f.slot ≠ k := by
    rintro f hf hkind rfl
    exact List.countP_eq_zero.mp hcount f hf (by simp [atPlace, hkind])
  refine ⟨?_, ?_⟩
  · intro j
    rcases eq_or_ne j k with rfl | hjk
    · rw [Function.update_self, hp, Bool.toNat_false, hcount]
    · rw [Function.update_of_ne hjk, h.receives]
  · intro f hf hkind
    rw [Function.update_of_ne (hnone f hf hkind)]
    exact h.owns f hf hkind

theorem Inv.setPlace (h : Inv L s) (hr : p.receiving = (s.places k).receiving)
    (hsince : p.since = (s.places k).since) (hfd : p.fd = (s.places k).fd) :
    Inv L (s.setPlace k p) := by
  have hcell : ∀ j, (Function.update s.places k p j).receiving = (s.places j).receiving ∧
      (Function.update s.places k p j).since = (s.places j).since ∧
      (Function.update s.places k p j).fd = (s.places j).fd := by
    intro j
    rcases eq_or_ne j k with rfl | hjk
    · simp [hr, hsince, hfd]
    · simp [Function.update_of_ne hjk]
  refine ⟨h.accounts, ⟨?_, ?_⟩, ⟨h.owners.conn, ?_, h.owners.queued, h.owners.moving,
    h.owners.fresh⟩, h.queue, h.flag, h.drained, h.clean⟩
  · intro j
    simpa only [State.setPlace, (hcell j).1] using h.lingers.receives j
  · intro f hf hkind
    simpa only [State.setPlace, (hcell f.slot).2.1, (hcell f.slot).2.2] using
      h.lingers.owns f hf hkind
  · intro j x hx
    simp only [State.setPlace, (hcell j).2.2] at hx
    exact h.owners.place j x hx

private theorem Inv.submitOther (h : Inv L s) (hconn : f.kind.ofConn = false)
    (hplace : (f.kind == .linger) = false) : Inv L (s.submit f) := by
  refine ⟨⟨?_, ?_, h.accounts.one⟩, ⟨?_, ?_⟩, h.owners, h.queue, h.flag, h.drained, h.clean⟩
  · intro j
    simp only [State.submit, List.countP_append, List.countP_singleton, ofIndex, hconn,
      Bool.false_and, Bool.false_eq_true, if_false, Nat.add_zero]
    exact h.accounts.ops j
  · intro g hg hk
    simp only [State.submit, List.mem_append, List.mem_singleton] at hg
    rcases hg with hg | rfl
    · exact h.accounts.owns g hg hk
    · simp [hconn] at hk
  · intro j
    simp only [State.submit, List.countP_append, List.countP_singleton, atPlace, hplace,
      Bool.false_and, Bool.false_eq_true, if_false, Nat.add_zero]
    exact h.lingers.receives j
  · intro g hg hk
    simp only [State.submit, List.mem_append, List.mem_singleton] at hg
    rcases hg with hg | rfl
    · exact h.lingers.owns g hg hk
    · simp [hk] at hplace

private theorem Inv.submitLinger (h : Inv L s) (hk : k < L.lingering)
    (hr : (s.places k).receiving = false)
    (hfd : (s.places k).fd = some fd) (hp : p.receiving = true)
    (hsince : p.since = (s.places k).since) (hpfd : p.fd = some fd) :
    Inv L ((s.setPlace k p).submit ⟨.linger, k, (s.places k).since, fd⟩) := by
  have hcell : ∀ j, (Function.update s.places k p j).since = (s.places j).since ∧
      (Function.update s.places k p j).fd = (s.places j).fd := by
    intro j
    rcases eq_or_ne j k with rfl | hjk
    · simp [hsince, hpfd, hfd]
    · simp [Function.update_of_ne hjk]
  refine ⟨⟨?_, ?_, h.accounts.one⟩, ⟨?_, ?_⟩, ⟨h.owners.conn, ?_, h.owners.queued,
    h.owners.moving, h.owners.fresh⟩, h.queue, h.flag, h.drained, h.clean⟩
  · intro j
    simp only [State.submit, State.setPlace, List.countP_append, List.countP_singleton, ofIndex,
      Kind.ofConn, Bool.false_and, Bool.false_eq_true, if_false, Nat.add_zero]
    exact h.accounts.ops j
  · intro f hf hkind
    simp only [State.submit, State.setPlace, List.mem_append, List.mem_singleton] at hf
    rcases hf with hf | rfl
    · exact h.accounts.owns f hf hkind
    · cases hkind
  · intro j
    have hj := h.lingers.receives j
    simp only [State.submit, State.setPlace, List.countP_append, List.countP_singleton, atPlace,
      beq_self_eq_true, Bool.true_and, beq_iff_eq] at hj ⊢
    rcases eq_or_ne j k with rfl | hjk
    · simp [hj, hr, hp]
    · simp [Function.update_of_ne hjk, hj, hjk.symm]
  · intro f hf hkind
    simp only [State.submit, State.setPlace, List.mem_append, List.mem_singleton] at hf ⊢
    rw [(hcell f.slot).1, (hcell f.slot).2]
    rcases hf with hf | rfl
    · exact h.lingers.owns f hf hkind
    · exact ⟨hk, rfl, hfd⟩
  · intro j x hx
    simp only [State.submit, State.setPlace, (hcell j).2] at hx
    exact h.owners.place j x hx

theorem Inv.dropLingering (h : Inv L s) (hfd : (s.places k).fd = some fd)
    (hr : (s.places k).receiving = false) : Inv L (dropLingering s k fd) := by
  have hown := h.owners.place k fd hfd
  have hbusy : s.busy fd = false := by
    refine h.not_busy (fun j hj => absurd (hown.symm.trans hj) nofun) (fun j hj => ?_)
    obtain rfl := Owner.place.inj (hown.symm.trans hj)
    exact hr
  refine ⟨h.accounts, h.lingers.idle hr hr, ?_, h.queue, h.flag, h.drained,
    ⟨h.clean.1, ?_, h.clean.2.2⟩⟩
  · refine h.owners.pass .closed (h.owners.conn_ne hown nofun _) ?_ (h.owners.queue_ne hown nofun _)
      (h.owners.frame_ne hown nofun _) (h.owners.lt hown nofun) le_rfl
    intro j x hx
    rcases eq_or_ne j k with rfl | hjk
    · simp [NntpRing.dropLingering, State.setPlace] at hx
    · simp only [NntpRing.dropLingering, State.setPlace, Function.update_of_ne hjk] at hx
      have hx : (s.places j).fd = some x := hx
      refine .inr ⟨?_, hx⟩
      rintro rfl
      exact hjk (Owner.place.inj ((h.owners.place j x hx).symm.trans hown))
  · simp only [NntpRing.dropLingering, State.setPlace, State.close, State.pass, hbusy, h.clean.2.1,
      Bool.or_false]

theorem Inv.lingerPass (h : Inv L s) (hk : k < L.lingering) : Inv L (lingerPass s k) := by
  unfold NntpRing.lingerPass
  dsimp only
  split
  · exact h
  rename_i fd hfd
  split_ifs with hdrop hend hrecv
  · exact h.dropLingering hfd hdrop.2
  · refine Inv.submitOther (h.setPlace rfl rfl rfl) ?_ ?_
    · rfl
    · rfl
  · simp only [Bool.and_eq_true, Bool.not_eq_true'] at hrecv
    exact h.submitLinger hk hrecv.1 hfd rfl rfl hfd
  · exact h

private theorem Inv.reapOther (h : Inv L s) (hf : s.flights[n]? = some f)
    (hconn : f.kind.ofConn = false)
    (hplace : (f.kind == .linger) = false) : Inv L { s with flights := s.flights.eraseIdx n } := by
  refine ⟨⟨?_, fun g hg => h.accounts.owns g (List.mem_of_mem_eraseIdx hg), h.accounts.one⟩,
    ⟨?_, fun g hg => h.lingers.owns g (List.mem_of_mem_eraseIdx hg)⟩, h.owners, h.queue, h.flag,
    h.drained, h.clean⟩
  · intro j
    have hj := h.accounts.ops j
    rw [countP_eraseIdx hf] at hj
    simpa [ofIndex, hconn] using hj
  · intro j
    have hj := h.lingers.receives j
    rw [countP_eraseIdx hf] at hj
    simpa [atPlace, hplace] using hj

private theorem Inv.reapConn (h : Inv L s) (hf : s.flights[n]? = some f)
    (hconn : f.kind.ofConn = true)
    (hops : c.ops = (s.conns f.slot).ops - 1) (hgen : c.gen = (s.conns f.slot).gen)
    (hfd : c.fd = (s.conns f.slot).fd) (hclosing : c.closingFd = (s.conns f.slot).closingFd) :
    Inv L ({ s with flights := s.flights.eraseIdx n }.setConn f.slot c) := by
  have hd : descriptor c = descriptor (s.conns f.slot) := by simp only [descriptor, hfd, hclosing]
  have hplace : (f.kind == .linger) = false := by cases hk : f.kind <;> simp_all [Kind.ofConn]
  have hcell : ∀ j, (Function.update s.conns f.slot c j).gen = (s.conns j).gen ∧
      (Function.update s.conns f.slot c j).fd = (s.conns j).fd ∧
      (Function.update s.conns f.slot c j).closingFd = (s.conns j).closingFd := by
    intro j
    rcases eq_or_ne j f.slot with rfl | hj
    · simp [hgen, hfd, hclosing]
    · simp [Function.update_of_ne hj]
  refine ⟨⟨?_, ?_, ?_⟩, ⟨?_, fun g hg => h.lingers.owns g (List.mem_of_mem_eraseIdx hg)⟩,
    ⟨?_, h.owners.place, h.owners.queued, h.owners.moving, h.owners.fresh⟩,
    ⟨?_, h.queue.indexes, h.queue.fds⟩, h.flag, h.drained, h.clean⟩
  · intro j
    have hj := h.accounts.ops j
    rw [countP_eraseIdx hf] at hj
    simp only [State.setConn]
    rcases eq_or_ne j f.slot with rfl | hne
    · rw [if_pos (by simp [ofIndex, hconn])] at hj
      rw [Function.update_self, hops, hj]
      rfl
    · rw [if_neg (by simp [ofIndex, hne.symm])] at hj
      rw [Function.update_of_ne hne, hj]
      rfl
  · intro g hg hk
    simpa only [State.setConn, (hcell g.slot).1, descriptor_update hd] using
      h.accounts.owns g (List.mem_of_mem_eraseIdx hg) hk
  · intro j hj
    simp only [State.setConn, (hcell j).2.1, (hcell j).2.2] at hj ⊢
    exact h.accounts.one j hj
  · intro j
    have hj := h.lingers.receives j
    rw [countP_eraseIdx hf] at hj
    simpa [State.setConn, atPlace, hplace] using hj
  · intro j x hx
    simp only [State.setConn, descriptor_update hd] at hx
    exact h.owners.conn j x hx
  · intro q hq
    simpa only [State.setConn, descriptor_update hd] using h.queue.gone q hq

private theorem Inv.reapLinger (h : Inv L s) (hf : s.flights[n]? = some f) (hk : f.kind = .linger)
    (hr : p.receiving = false) (hsince : p.since = (s.places f.slot).since)
    (hfd : p.fd = (s.places f.slot).fd) :
    Inv L ({ s with flights := s.flights.eraseIdx n }.setPlace f.slot p) := by
  have hcell : ∀ j, (Function.update s.places f.slot p j).since = (s.places j).since ∧
      (Function.update s.places f.slot p j).fd = (s.places j).fd := by
    intro j
    rcases eq_or_ne j f.slot with rfl | hj
    · simp [hsince, hfd]
    · simp [Function.update_of_ne hj]
  refine ⟨⟨?_, fun g hg => h.accounts.owns g (List.mem_of_mem_eraseIdx hg), h.accounts.one⟩,
    ⟨?_, ?_⟩, ⟨h.owners.conn, ?_, h.owners.queued, h.owners.moving, h.owners.fresh⟩, h.queue,
    h.flag, h.drained, h.clean⟩
  · intro j
    have hj := h.accounts.ops j
    rw [countP_eraseIdx hf] at hj
    simpa [State.setPlace, ofIndex, hk, Kind.ofConn] using hj
  · intro j
    have hj := h.lingers.receives j
    rw [countP_eraseIdx hf] at hj
    have hle := Bool.toNat_le (s.places j).receiving
    simp only [State.setPlace]
    rcases eq_or_ne j f.slot with rfl | hne
    · rw [if_pos (by simp [atPlace, hk])] at hj
      rw [Function.update_self, hr, Bool.toNat_false]
      omega
    · rw [if_neg (by simp [atPlace, hne.symm])] at hj
      rw [Function.update_of_ne hne]
      exact hj
  · intro g hg hkind
    simpa only [State.setPlace, (hcell g.slot).1, (hcell g.slot).2] using
      h.lingers.owns g (List.mem_of_mem_eraseIdx hg) hkind
  · intro j x hx
    simp only [State.setPlace, (hcell j).2] at hx
    exact h.owners.place j x hx

/-- Slots fit the 24 bits a token has for them. -/
structure Fits (L : Limits) : Prop where
  conns : L.conns ≤ 2 ^ 24
  lingering : L.lingering ≤ 2 ^ 24
  place : 0 < L.lingering

theorem Inv.slot (h : Inv L s) (hL : Fits L) (hf : f ∈ s.flights)
    (hk : f.kind.ofConn = true ∨ f.kind = .linger) : tokenSlot f.token = f.slot := by
  have hconns := hL.conns
  have hlingering := hL.lingering
  rw [Flight.token, tokenSlot_token]
  rcases hk with hk | hk
  · have hlt := (h.accounts.owns f hf hk).1
    exact Nat.mod_eq_of_lt (by omega)
  · have hlt := (h.lingers.owns f hf hk).1
    exact Nat.mod_eq_of_lt (by omega)

theorem Inv.delivered (h : Inv L s) (hL : Fits L) (hf : f ∈ s.flights) : delivered s f = true := by
  unfold NntpRing.delivered
  split
  · rename_i hk
    simp [h.slot hL hf (.inl hk), (h.accounts.owns f hf hk).2.1]
  · split
    · rename_i hk
      have hk : f.kind = .linger := by simpa using hk
      simp [h.slot hL hf (.inr hk), (h.lingers.owns f hf hk).2.1]
    · rfl

theorem Inv.connReaped {kind : Kind} {res : ℤ} (h : Inv L (s.setConn i c)) (hi : i < L.conns)
    (hframe : s.frame ≠ .none) : Inv L (connReaped L s kind i c res) := by
  have hself : (s.setConn i c).conns i = c := Function.update_self ..
  have htwice : ∀ c', (s.setConn i c).setConn i c' = s.setConn i c' := by
    intro c'
    simp [State.setConn, Function.update_idem]
  unfold NntpRing.connReaped
  split
  · rename_i fd hclosing
    split
    · rename_i hz
      have hfd : c.fd = none := by
        by_contra hsome
        have hone := h.accounts.one i (by rw [hself]; exact Option.isSome_iff_ne_none.mpr hsome)
        rw [hself, hclosing] at hone
        cases hone
      rw [← htwice]
      refine h.letGo hi ?_ (by rw [hself]; exact hz) hz ?_ fun _ _ => hframe
      · rw [hself, descriptor, hfd, hclosing]
        rfl
      · rw [descriptor, hfd]
        rfl
    · exact h
  · split
    · rw [← htwice]
      exact h.setConn (by rw [hself]) (by rw [hself]) (by rw [hself]) (by rw [hself])
    · exact h

theorem Inv.connCompleted (h : Inv L s) (hf : s.flights[n]? = some f) (hconn : f.kind.ofConn = true)
    (hframe : s.frame ≠ .none) (res : ℤ) :
    Inv L (connCompleted L { s with flights := s.flights.eraseIdx n } f.kind f.slot (f.gen % 2 ^ 32)
      res) := by
  obtain ⟨hlt, hgen, -⟩ := h.accounts.owns f (List.mem_of_getElem? hf) hconn
  have hlive : ¬ (s.conns f.slot).ops < 1 := by
    rw [h.accounts.ops, not_lt, Nat.one_le_iff_ne_zero]
    intro hzero
    exact List.countP_eq_zero.mp hzero f (List.mem_of_getElem? hf) (by simp [ofIndex, hconn])
  have hreaped := h.reapConn (c := (s.conns f.slot).reaped f.kind) hf hconn rfl rfl rfl rfl
  unfold NntpRing.connCompleted
  dsimp only
  rw [if_neg (by simp [hgen, hlive])]
  split
  · refine Inv.connReaped ?_ hlt hframe
    exact ⟨hreaped.accounts, hreaped.lingers, hreaped.owners, hreaped.queue, hreaped.flag,
      hreaped.drained, hreaped.clean⟩
  · exact hreaped.connReaped hlt hframe

theorem Inv.lingeringCompleted (h : Inv L s) (hf : s.flights[n]? = some f) (hk : f.kind = .linger)
    (res : ℤ) :
    Inv L (lingeringCompleted L { s with flights := s.flights.eraseIdx n } f.slot (f.gen % 2 ^ 32)
      res) := by
  obtain ⟨hlt, hgen, hfd⟩ := h.lingers.owns f (List.mem_of_getElem? hf) hk
  have hreaped := h.reapLinger (p := (s.places f.slot).reaped) hf hk rfl rfl rfl
  unfold NntpRing.lingeringCompleted
  dsimp only
  rw [if_neg (by simp [hgen, hlt])]
  split
  · rename_i hnone
    exact absurd (hfd.symm.trans hnone) nofun
  · rename_i fd hsome
    split
    · exact h.reapLinger hf hk rfl rfl rfl
    · split
      · refine hreaped.dropLingering ?_ ?_
        · simpa [State.setPlace, Place.reaped] using hsome
        · simp [State.setPlace, Place.reaped]
      · exact hreaped

private theorem takeCompletion_of_code {token : ℕ} {kind : Kind} (res : ℤ)
    (hkind : Kind.ofCode (tokenKind token) = some kind) :
    takeCompletion L s token res = takeKind L s kind (tokenSlot token) (tokenGen token) res := by
  rw [takeCompletion, hkind]

private theorem takeCompletion_token (f : Flight) (res : ℤ) :
    takeCompletion L s f.token res =
      takeKind L s f.kind (tokenSlot f.token) (f.gen % 2 ^ 32) res := by
  rw [takeCompletion_of_code res (ofCode_token f), Flight.token, tokenGen_token]

private theorem Inv.takeConn (h : Inv L s) (hf : s.flights[n]? = some f)
    (hconn : f.kind.ofConn = true)
    (hframe : s.frame ≠ .none) (res : ℤ) :
    Inv L (takeKind L { s with flights := s.flights.eraseIdx n } f.kind f.slot (f.gen % 2 ^ 32)
      res) := by
  have hdone := h.connCompleted hf hconn hframe res
  have hlt := (h.accounts.owns f (List.mem_of_getElem? hf) hconn).1
  generalize f.gen % 2 ^ 32 = gen at hdone ⊢
  generalize f.kind = kind at hconn hdone ⊢
  cases kind with
  | recv | send | cancel =>
    simp only [takeKind, if_neg (not_le.mpr hlt)]
    exact hdone
  | ready => cases hconn
  | linger => cases hconn
  | lingerCancel => cases hconn

theorem Inv.takeCompletion (h : Inv L s) (hL : Fits L) (hf : s.flights[n]? = some f)
    (hframe : s.frame ≠ .none) (res : ℤ) :
    Inv L (takeCompletion L { s with flights := s.flights.eraseIdx n } f.token res) := by
  have hmem := List.mem_of_getElem? hf
  rw [takeCompletion_token]
  cases hconn : f.kind.ofConn with
  | true =>
    rw [h.slot hL hmem (.inl hconn)]
    exact h.takeConn hf hconn hframe res
  | false =>
    cases hk : f.kind with
    | recv | send | cancel => simp [hk, Kind.ofConn] at hconn
    | ready =>
      have hreaped := h.reapOther hf hconn (by simp [hk])
      exact ⟨hreaped.accounts, hreaped.lingers, hreaped.owners, hreaped.queue, hreaped.flag,
        hreaped.drained, hreaped.clean⟩
    | lingerCancel => exact h.reapOther hf hconn (by simp [hk])
    | linger =>
      rw [h.slot hL hmem (.inr hk)]
      exact h.lingeringCompleted hf hk res

private theorem pickPlace_mem (places : ℕ → Place) (best : ℕ) (l : List ℕ) :
    pickPlace places best l = best ∨ pickPlace places best l ∈ l := by
  induction l generalizing best with
  | nil => exact .inl rfl
  | cons j rest ih =>
    rw [pickPlace]
    split
    · exact .inr List.mem_cons_self
    · rcases ih (if (places j).since < (places best).since then j else best) with heq | hmem
      · rw [heq]
        split
        · exact .inr List.mem_cons_self
        · exact .inl rfl
      · exact .inr (List.mem_cons_of_mem _ hmem)

private theorem pickPlace_lt (places : ℕ → Place) (hL : Fits L) :
    pickPlace places 0 (List.range L.lingering) < L.lingering := by
  rcases pickPlace_mem places 0 (List.range L.lingering) with heq | hmem
  · rw [heq]
    exact hL.place
  · exact List.mem_range.mp hmem

private theorem Inv.way_not_busy (h : Inv L s) {o : Owner} (hown : s.owner fd = o)
    (hconn : ∀ j, o ≠ .conn j) (hplace : ∀ j, o ≠ .place j) : s.busy fd = false :=
  h.not_busy (fun j hj => absurd (hown.symm.trans hj) (hconn j))
    fun j hj => absurd (hown.symm.trans hj) (hplace j)

private theorem Inv.dequeue {q : Queued} {rest : List Queued} (frame : Frame) (o : Owner)
    (h : Inv L s)
    (hq : s.toLinger = q :: rest) (hframe : s.frame = .queue) (hin : inQueue frame = true)
    (ho : ∀ j x, holds frame = some (j, x) → x = q.fd ∧ o = .moving ∧ j < L.lingering)
    (hnone : frame ≠ .none) :
    Inv L { { s with toLinger := rest }.pass q.fd o with frame := frame } := by
  have hmem : q ∈ s.toLinger := by simp [hq]
  have hown := h.owners.queued q hmem
  have hindexes := h.queue.indexes
  have hfds := h.queue.fds
  rw [hq, List.map_cons, List.nodup_cons] at hindexes hfds
  have hbusy : s.busy q.fd = false := h.way_not_busy hown nofun nofun
  refine ⟨h.accounts, h.lingers, ?_, ⟨?_, hindexes.2, hfds.2⟩, ?_, ?_, ⟨h.clean.1, ?_, h.clean.2.2⟩⟩
  · refine h.owners.pass o (h.owners.conn_ne hown nofun _) (h.owners.place_ne hown nofun _) ?_
      (fun j x hx => .inl (ho j x hx)) (h.owners.lt hown nofun) le_rfl
    intro r hr
    refine .inr ⟨?_, by simp [hq, show r ∈ rest from hr]⟩
    intro heq
    exact hfds.1 (heq ▸ List.mem_map_of_mem hr)
  · intro r hr
    exact h.queue.gone r (by simp [hq, show r ∈ rest from hr])
  · have hflag := h.flag
    rw [hframe] at hflag
    exact hflag.trans hin.symm
  · intro _ hcontra
    exact absurd hcontra hnone
  · change (s.busyClose || s.busy q.fd) = false
    rw [hbusy, h.clean.2.1]
    rfl

theorem Inv.linger {q : Queued} {rest : List Queued} (h : Inv L s) (hL : Fits L)
    (hq : s.toLinger = q :: rest) (hframe : s.frame = .queue) (shut : Bool) :
    Inv L (linger L { s with toLinger := rest } q.fd shut) := by
  unfold NntpRing.linger
  split
  · have hclosed := h.dequeue .queue .closed hq hframe rfl nofun nofun
    rw [← hframe] at hclosed
    exact hclosed
  · have hmoved := h.dequeue (.unlinger (pickPlace s.places 0 (List.range L.lingering)) q.fd)
      .moving hq hframe rfl
      (by rintro j x ⟨⟩; exact ⟨rfl, rfl, pickPlace_lt s.places hL⟩) nofun
    dsimp only
    split
    · exact hmoved
    · split
      · refine Inv.submitOther (hmoved.setPlace rfl rfl rfl) ?_ ?_
        · rfl
        · rfl
      · exact hmoved

private theorem Lingers.receiving_fd {m : ℕ} {places : ℕ → Place} (h : Lingers m places flights)
    (hfd : (places k).fd = none) : (places k).receiving = false := by
  by_contra hr
  have hcount := h.receives k
  rw [Bool.not_eq_false] at hr
  rw [hr, Bool.toNat_true] at hcount
  obtain ⟨f, hf, hat⟩ := List.countP_pos_iff.mp (by omega : 0 < flights.countP (atPlace k))
  simp only [atPlace, Bool.and_eq_true, beq_iff_eq] at hat
  have hown := (h.owns f hf hat.1).2.2
  rw [hat.2, hfd] at hown
  cases hown

private theorem Inv.takePlace (h : Inv L s) (hframe : s.frame = .unlinger k fd)
    (hfd : (s.places k).fd = none)
    (hp : p.fd = some fd) (hr : p.receiving = false) (lingered : ℕ) :
    Inv L { (s.pass fd (.place k)).setPlace k p with lingered := lingered, frame := .queue } := by
  obtain ⟨hown, hk⟩ := h.owners.moving k fd (by rw [hframe]; rfl)
  have hbusy : s.busy fd = false := h.way_not_busy hown nofun nofun
  refine ⟨h.accounts, h.lingers.idle (h.lingers.receiving_fd hfd) hr, ?_, h.queue, ?_, nofun,
    ⟨h.clean.1, ?_, h.clean.2.2⟩⟩
  · refine h.owners.pass (.place k) (h.owners.conn_ne hown nofun _) ?_
      (h.owners.queue_ne hown nofun _) nofun (h.owners.lt hown nofun) le_rfl
    intro j x hx
    rcases eq_or_ne j k with rfl | hjk
    · simp only [State.setPlace, Function.update_self, hp] at hx
      exact .inl ⟨(Option.some.inj hx).symm, rfl⟩
    · simp only [State.setPlace, Function.update_of_ne hjk] at hx
      exact h.owners.place_ne hown nofun (Owner.place k = Owner.place ·) j x hx
  · have hflag := h.flag
    rw [hframe] at hflag
    exact hflag
  · change (s.busyClose || s.busy fd) = false
    rw [hbusy, h.clean.2.1]
    rfl

theorem Inv.unlinger (h : Inv L s) (hframe : s.frame = .unlinger k fd) :
    Inv L (unlinger s k fd) := by
  unfold NntpRing.unlinger
  dsimp only
  split
  · refine ⟨h.accounts, h.lingers, ⟨h.owners.conn, h.owners.place, h.owners.queued, ?_,
      h.owners.fresh⟩, h.queue, ?_, nofun, h.clean⟩
    · intro j x hx
      exact h.owners.moving j x (by rw [hframe]; exact hx)
    · have hflag := h.flag
      rw [hframe] at hflag
      exact hflag
  · rename_i hidle
    split
    · rename_i hnone
      exact h.takePlace hframe hnone rfl rfl _
    · rename_i old hold
      have hr : (s.places k).receiving = false := by simpa [hold] using hidle
      exact (h.dropLingering hold hr).takePlace hframe
        (by simp [NntpRing.dropLingering, State.setPlace]) rfl rfl _

theorem Inv.lingerQueued {back : Frame} (h : Inv L s) (hback : s.frame = .taking ∧ back = .none ∨
    (∃ j x, s.frame = .nested j x ∧ back = .unlinger j x) ∨ s.frame = .none) :
    Inv L (lingerQueued s back) := by
  have hflag := h.flag
  unfold NntpRing.lingerQueued
  rcases hback with ⟨hframe, rfl⟩ | ⟨j, x, hframe, rfl⟩ | hframe
  · rw [if_neg (by simp [hflag, hframe, inQueue])]
    exact ⟨h.accounts, h.lingers, ⟨h.owners.conn, h.owners.place, h.owners.queued, nofun,
      h.owners.fresh⟩, h.queue, rfl, nofun, h.clean⟩
  · rw [if_pos (by simp [hflag, hframe, inQueue])]
    refine ⟨h.accounts, h.lingers, ⟨h.owners.conn, h.owners.place, h.owners.queued, ?_,
      h.owners.fresh⟩, h.queue, ?_, nofun, h.clean⟩
    · intro k fd hk
      exact h.owners.moving k fd (by rw [hframe]; exact hk)
    · rw [hframe] at hflag
      exact hflag
  · rw [if_neg (by simp [hflag, hframe, inQueue])]
    exact ⟨h.accounts, h.lingers, ⟨h.owners.conn, h.owners.place, h.owners.queued, nofun,
      h.owners.fresh⟩, h.queue, rfl, nofun, h.clean⟩

theorem goOn_inv (h : Inv L s) (hstep : goOn L s = some t) : Inv L t := by
  unfold goOn at hstep
  split at hstep
  · rename_i k fd turn hframe
    obtain rfl := Option.some.inj hstep
    exact h.unlinger hframe
  · rename_i turn hframe
    split at hstep
    · rename_i hempty
      obtain rfl := Option.some.inj hstep
      exact ⟨h.accounts, h.lingers, ⟨h.owners.conn, h.owners.place, h.owners.queued, nofun,
        h.owners.fresh⟩, h.queue, rfl, fun _ _ => hempty, h.clean⟩
    · cases hstep
  · split at hstep
    · obtain rfl := Option.some.inj hstep
      exact ⟨h.accounts, h.lingers, h.owners, h.queue, h.flag, nofun, h.clean⟩
    · cases hstep
  · split at hstep
    · obtain rfl := Option.some.inj hstep
      exact ⟨h.accounts, h.lingers, h.owners, h.queue, h.flag, nofun, h.clean⟩
    · cases hstep
  · rename_i k hframe hturn
    split at hstep
    · obtain rfl := Option.some.inj hstep
      refine Inv.lingerQueued ?_ (.inr (.inr hframe))
      exact ⟨h.accounts, h.lingers, h.owners, h.queue, h.flag, nofun, h.clean⟩
    · rename_i hk
      obtain rfl := Option.some.inj hstep
      have hsent := h.finishSend (i := k) (by omega)
      exact ⟨hsent.accounts, hsent.lingers, hsent.owners, hsent.queue, hsent.flag, nofun,
        hsent.clean⟩
  · cases hstep

theorem inNext_inv (h : Inv L s) (hturn : s.turn = .next) (hframe : s.frame = .none)
    (hstep : inNext L s a = some t) : Inv L t := by
  cases a with
  | accept tls => exact h.admitConn (h.drained hturn hframe) hstep
  | interest i =>
    simp only [inNext] at hstep
    split at hstep
    · rename_i hi
      obtain rfl := Option.some.inj hstep
      exact h.interest hi
    · cases hstep
  | lingerPass k =>
    simp only [inNext] at hstep
    split at hstep
    · rename_i hk
      obtain rfl := Option.some.inj hstep
      exact h.lingerPass hk
    · cases hstep
  | arm =>
    simp only [inNext] at hstep
    split at hstep
    · cases hstep
    · obtain rfl := Option.some.inj hstep
      refine Inv.submitOther ?_ rfl rfl
      exact ⟨h.accounts, h.lingers, h.owners, h.queue, h.flag, h.drained, h.clean⟩
  | giveOut i r =>
    simp only [inNext] at hstep
    split at hstep
    · rename_i hi
      obtain rfl := Option.some.inj hstep
      exact h.giveOut hi r
    · cases hstep
  | reap =>
    obtain rfl := Option.some.inj hstep
    have hflag := h.flag
    rw [hframe] at hflag
    exact ⟨h.accounts, h.lingers, ⟨h.owners.conn, h.owners.place, h.owners.queued, nofun,
      h.owners.fresh⟩, h.queue, hflag, nofun, h.clean⟩
  | emit =>
    obtain rfl := Option.some.inj hstep
    exact ⟨h.accounts, h.lingers, h.owners, h.queue, h.flag, nofun, h.clean⟩
  | tick => cases hstep
  | act a => cases hstep
  | goOn => cases hstep
  | take n res => cases hstep
  | taken => cases hstep
  | linger shut => cases hstep

theorem inTake_inv {back : Frame} (h : Inv L s) (hL : Fits L)
    (hback : s.frame = .taking ∧ back = .none ∨
      ∃ j x, s.frame = .nested j x ∧ back = .unlinger j x)
    (hstep : inTake L s back a = some t) : Inv L t := by
  have hframe : s.frame ≠ .none := by
    rcases hback with ⟨hf, -⟩ | ⟨j, x, hf, -⟩ <;> simp [hf]
  unfold inTake at hstep
  split at hstep
  · split at hstep
    · cases hstep
    · rename_i f hf
      obtain rfl := Option.some.inj hstep
      simp only [h.delivered hL (List.mem_of_getElem? hf), Bool.not_true, Bool.or_false]
      exact h.takeCompletion hL hf hframe _
  · obtain rfl := Option.some.inj hstep
    refine h.lingerQueued ?_
    rcases hback with hb | hb
    · exact .inl hb
    · exact .inr (.inl hb)
  · cases hstep

theorem step_inv (h : Inv L s) (hL : Fits L) (hstep : step L s a = some t) : Inv L t := by
  unfold step at hstep
  split at hstep
  · cases hstep
  split at hstep
  · obtain rfl := Option.some.inj hstep
    exact ⟨h.accounts, h.lingers, h.owners, h.queue, h.flag, h.drained, h.clean⟩
  · exact goOn_inv h hstep
  · rename_i hframe
    split at hstep
    · cases hstep
    · rename_i q rest hq
      obtain rfl := Option.some.inj hstep
      exact h.linger hL hq hframe _
  · rename_i hframe hturn
    split at hstep
    · cases hstep
    · obtain rfl := Option.some.inj hstep
      have hflag := h.flag
      rw [hframe] at hflag
      exact ⟨h.accounts, h.lingers, ⟨h.owners.conn, h.owners.place, h.owners.queued, nofun,
        h.owners.fresh⟩, h.queue, hflag, nofun, h.clean⟩
  · rename_i a' k hframe hturn
    split at hstep
    · rename_i hk
      obtain rfl := Option.some.inj hstep
      have hact := h.act (a := a') hk (by rw [hturn]; nofun)
      exact ⟨hact.accounts, hact.lingers, hact.owners, hact.queue, hact.flag, nofun, hact.clean⟩
    · cases hstep
  · rename_i hframe hturn
    exact inNext_inv h hturn hframe hstep
  · rename_i hframe
    exact inTake_inv h hL (.inl ⟨hframe, rfl⟩) hstep
  · rename_i hframe
    exact inTake_inv h hL (.inr ⟨_, _, hframe, rfl⟩) hstep
  · cases hstep

/-- In every run, at each step of it and in the midst of the nested reaps: no violation is raised;
no descriptor was closed, or given to lingering, with an operation on it not reaped; no completion
was handled at another index or generation than its own; `ops` counts the operations of each
connection not reaped; and a usable index has none. -/
theorem ring_accounts_exact (hL : Fits L) {acts : List Action}
    (hrun : run (step L) start acts = some s) :
    s.violation = none ∧ s.busyClose = false ∧ s.misdelivered = false ∧
      (∀ i, (s.conns i).ops = s.flights.countP (ofIndex i)) ∧
      ∀ i, usable s i = true → s.flights.countP (ofIndex i) = 0 := by
  have keep : ∀ {s t : State} {a : Action}, Inv L s → step L s a = some t → Inv L t :=
    fun h hstep => step_inv h hL hstep
  have h := invariant_of_step keep (start_inv L) hrun
  refine ⟨h.clean.1, h.clean.2.1, h.clean.2.2, h.accounts.ops, ?_⟩
  intro i hu
  rw [← h.accounts.ops]
  exact h.accounts.ops_eq_zero (descriptor_of_usable hu)

/-- `dn_emit` with an action for the first of two indexes, and no sends to reap. -/
private def emitted (a : Act) : List Action :=
  [.emit, .act a, .act .none, .goOn, .goOn, .goOn, .goOn, .goOn]

/-- A connection sends and receives, is closed with its receive in flight, and lingers; the next one
at its index is closed in its turn, and the only place is given up to it, its receive reaped from
inside the queue. -/
def lingerTwice : List Action :=
  [.accept false, .emit, .act (.send 1 5 true false false), .act .none, .goOn, .reap, .take 0 5,
    .taken, .goOn, .goOn, .goOn, .goOn, .goOn, .goOn, .interest 0] ++
  emitted (.close 1 true) ++
  [.goOn, .reap, .take 0 (-125), .take 0 0, .taken, .linger true, .goOn, .goOn, .lingerPass 0,
    .accept false] ++
  emitted (.close 2 true) ++
  [.linger true, .goOn, .take 0 (-125), .taken, .goOn, .goOn]

theorem lingerTwice_exact : Fits host ∧ ∃ s, run (step ⟨2, 1⟩) start lingerTwice = some s ∧
    s.lingered = 2 ∧ s.flights = [⟨.lingerCancel, 0, 1, 0⟩] ∧ s.owner 0 = .closed ∧
    s.owner 1 = .place 0 ∧
    (s.violation = none ∧ s.busyClose = false ∧ s.misdelivered = false ∧
      (∀ i, (s.conns i).ops = s.flights.countP (ofIndex i)) ∧
      ∀ i, usable s i = true → s.flights.countP (ofIndex i) = 0) := by
  have hrun : ∃ s, run (step ⟨2, 1⟩) start lingerTwice = some s ∧ s.lingered = 2 ∧
      s.flights = [⟨.lingerCancel, 0, 1, 0⟩] ∧ s.owner 0 = .closed ∧ s.owner 1 = .place 0 :=
    ⟨_, rfl, rfl, rfl, rfl, rfl⟩
  obtain ⟨s, hrun, hlingered, hflights, hzero, hone⟩ := hrun
  exact ⟨⟨by decide, by decide, by decide⟩, s, hrun, hlingered, hflights, hzero, hone,
    ring_accounts_exact ⟨by decide, by decide, by decide⟩ hrun⟩

end DragonsNet.Native.NntpRingCounts
