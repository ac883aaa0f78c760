/- GID: DragonsNet/Dataplane/ShardOwners
   source: migration/dataplane/host/src/uring.rs
   digest: Completions reach their owners in every run whose sweeps find no operation in flight. -/

import DragonsNet.Dataplane.ShardHandlers

set_option autoImplicit false

namespace DragonsNet.Dataplane.ShardOwners

open Lib.Runs (run Meets run_cons invariant_of_meets)
open Dataplane.Shard
open Dataplane.ShardHandlers

def foreign (s : State) (i x : ℕ) : Prop :=
  ∃ j, j ≠ i ∧ ∃ d, (s.cells j).conn.bind Conn.proxy = some d ∧ d.id = x

/-- The free list and the slots past the end are those without a connection. -/
structure Slab (s : State) : Prop where
  freed : ∀ i ∈ s.free, (s.cells i).conn = none ∧ i < s.len
  nodup : s.free.Nodup
  beyond : ∀ i, s.len ≤ i → (s.cells i).conn = none

structure Inv (zc : Bool) (s : State) : Prop where
  slab : Slab s
  good : ∀ i, Good zc (foreign s i) (s.view i)
  delivered : s.misdelivered = false

variable {cfg : Cfg} {zc : Bool} {s t : State} {i j : ℕ} {v : View}

theorem init_inv : Inv zc init where
  slab := ⟨nofun, List.nodup_nil, fun _ _ => rfl⟩
  good _ := ⟨.free, ⟨List.nodup_nil, nofun, nofun, by rintro _ ⟨_, _, _, ⟨⟩, _⟩⟩, rfl⟩
  delivered := rfl

theorem Slab.put (h : Slab s) (hi : (s.cells i).conn.isSome) (v : View) : Slab (s.put i v) := by
  have hfree : i ∉ s.free := fun hmem => by simp [(h.freed i hmem).1] at hi
  have hlt : i < s.len := by
    by_contra hge
    simp [h.beyond i (by omega)] at hi
  have hne : ∀ j ∈ s.free, j ≠ i := by
    rintro j hj rfl
    exact hfree hj
  refine ⟨?_, ?_, ?_⟩
  · intro j hj
    simp only [State.put, hi, Bool.true_and] at hj
    split at hj
    · rename_i hnone
      rcases List.mem_cons.mp hj with rfl | hj
      · simpa [State.put, hlt] using hnone
      · simpa [State.put, Function.update_of_ne (hne j hj)] using h.freed j hj
    · simpa [State.put, Function.update_of_ne (hne j hj)] using h.freed j hj
  · simp only [State.put]
    split
    · exact List.nodup_cons.mpr ⟨hfree, h.nodup⟩
    · exact h.nodup
  · intro j hj
    have hji : j ≠ i := by
      rintro rfl
      exact absurd hlt (not_lt.mpr hj)
    simpa [State.put, Function.update_of_ne hji] using h.beyond j hj

/-- A handler's work leaves every other slot in its mode: the results it pushed and the dials it
made are not theirs. -/
theorem Good.other (hv : Good zc (foreign s i) v) (hj : Good zc (foreign s j) (s.view j))
    (hji : j ≠ i) : Good zc (foreign (s.put i v) j) ((s.put i v).view j) := by
  have hcell : (s.put i v).cells j = s.cells j := Function.update_of_ne hji ..
  have hown : ∀ x, foreign (s.put i v) j x →
      foreign s i x ∨ ∃ d, v.conn.bind Conn.proxy = some d ∧ d.id = x := by
    rintro x ⟨k, hk, d, hd, hx⟩
    rcases eq_or_ne k i with rfl | hki
    · exact .inr ⟨d, by simpa [State.put] using hd, hx⟩
    · exact .inl ⟨k, hki, d, by simpa [State.put, Function.update_of_ne hki] using hd, hx⟩
  refine ⟨?_, ⟨hv.ids.once, hv.ids.old, ?_, ?_⟩, hv.idle⟩
  · simpa only [State.view, hcell] using hj.mode
  · intro d hd
    simp only [State.view, hcell] at hd
    have hfor : foreign s i d.id := ⟨j, hji, d, hd, rfl⟩
    obtain ⟨hlt, hnew⟩ := hv.ids.others d.id hfor
    refine ⟨hlt, hnew, ?_⟩
    rintro ⟨k, hk, d', hd', hid⟩
    rcases eq_or_ne k i with rfl | hki
    · have hd'' : v.conn.bind Conn.proxy = some d' := by simpa [State.put] using hd'
      exact (hv.ids.live d' hd'').2.2 (hid ▸ hfor)
    · refine (hj.ids.live d hd).2.2 ⟨k, hk, d', ?_, hid⟩
      simpa [State.put, Function.update_of_ne hki] using hd'
  · intro x hx
    rcases hown x hx with hx | ⟨d, hd, rfl⟩
    · exact hv.ids.others x hx
    · exact ⟨(hv.ids.live d hd).1, (hv.ids.live d hd).2.1⟩

theorem Good.own (hv : Good zc (foreign s i) v) :
    Good zc (foreign (s.put i v) i) ((s.put i v).view i) := by
  have hsame : ∀ x, foreign (s.put i v) i x → foreign s i x := by
    rintro x ⟨k, hk, d, hd, hx⟩
    exact ⟨k, hk, d, by simpa [State.put, Function.update_of_ne hk] using hd, hx⟩
  have hcell : (s.put i v).cells i = ⟨v.conn, v.ops, v.replies⟩ := Function.update_self ..
  refine ⟨?_, ⟨hv.ids.once, hv.ids.old, ?_, fun x hx => hv.ids.others x (hsame x hx)⟩, hv.idle⟩
  · simpa only [State.view, hcell] using hv.mode
  · intro d hd
    simp only [State.view, hcell] at hd
    obtain ⟨hlt, hnew, hown⟩ := hv.ids.live d hd
    exact ⟨hlt, hnew, fun hx => hown (hsame _ hx)⟩

theorem inv_put (hs : Slab s) (hi : (s.cells i).conn.isSome) (hv : Good zc (foreign s i) v)
    (hothers : ∀ j, j ≠ i → Good zc (foreign s j) (s.view j)) (hd : s.misdelivered = false) :
    Inv zc (s.put i v) := by
  refine ⟨hs.put hi v, fun j => ?_, hd⟩
  rcases eq_or_ne j i with rfl | hji
  · exact Good.own hv
  · exact Good.other hv (hothers j hji) hji

theorem Inv.put (h : Inv zc s) (hi : (s.cells i).conn.isSome) (hv : Good zc (foreign s i) v) :
    Inv zc (s.put i v) :=
  inv_put h.slab hi hv (fun j _ => h.good j) h.delivered

private theorem insert_slot (h : Inv zc s) :
    (s.cells s.insert.1).conn = none ∧ Slab s.insert.2 ∧
      s.insert.2.cells = Function.update s.cells s.insert.1
        ⟨some (Conn.new s.nextConn), [], []⟩ := by
  have hempty : ∀ i, (s.cells i).conn = none → (s.cells i).ops = [] ∧ (s.cells i).replies = [] := by
    intro i hi
    have hmode := (h.good i).mode
    simp only [State.view, hi] at hmode
    generalize (s.cells i).ops = ops at hmode ⊢
    generalize (s.cells i).replies = replies at hmode ⊢
    cases hmode
    exact ⟨rfl, rfl⟩
  unfold State.insert
  cases hf : s.free with
  | nil =>
    have hnone := h.slab.beyond s.len le_rfl
    obtain ⟨hops, hreplies⟩ := hempty _ hnone
    refine ⟨hnone, ⟨?_, ?_, ?_⟩, by simp only [hops, hreplies]⟩
    · intro j hj
      cases hj
    · exact List.nodup_nil
    · intro j hj
      have hj : s.len + 1 ≤ j := hj
      simpa [Function.update_of_ne (show j ≠ s.len by omega)] using h.slab.beyond j (by omega)
  | cons i free =>
    have hi : i ∈ s.free := by simp [hf]
    have hnodup := h.slab.nodup
    rw [hf, List.nodup_cons] at hnodup
    obtain ⟨hnone, hlt⟩ := h.slab.freed i hi
    obtain ⟨hops, hreplies⟩ := hempty _ hnone
    refine ⟨hnone, ⟨?_, hnodup.2, ?_⟩, by simp only [hops, hreplies]⟩
    · intro j hj
      have hji : j ≠ i := by
        rintro rfl
        exact hnodup.1 hj
      simpa [Function.update_of_ne hji] using h.slab.freed j (by simp [hf, show j ∈ free from hj])
    · intro j hj
      have hji : j ≠ i := by
        rintro rfl
        exact absurd hlt (not_lt.mpr hj)
      simpa [Function.update_of_ne hji] using h.slab.beyond j hj

private theorem insert_rest : s.insert.2.now = s.now ∧ s.insert.2.nextDial = s.nextDial ∧
    s.insert.2.pushed = s.pushed ∧ s.insert.2.busyDrop = s.busyDrop ∧
    s.insert.2.misdelivered = s.misdelivered := by
  unfold State.insert
  split <;> simp

theorem onAccept_inv (h : Inv cfg.zc s) (refused : Option Bool) :
    Inv cfg.zc (onAccept cfg s refused) := by
  obtain ⟨hnone, hslab, hcells⟩ := insert_slot h
  obtain ⟨hnow, hdial, hpushed, hbusy, hmis⟩ := insert_rest (s := s)
  unfold onAccept
  generalize s.insert = inserted at *
  obtain ⟨i, t⟩ := inserted
  simp only at hnone hslab hcells hnow hdial hpushed hbusy hmis ⊢
  have hdials : ∀ j, (t.cells j).conn.bind Conn.proxy = (s.cells j).conn.bind Conn.proxy := by
    intro j
    rcases eq_or_ne j i with rfl | hji
    · simp [hcells, hnone, Conn.new]
    · simp [hcells, Function.update_of_ne hji]
  have hforeign : ∀ j, foreign t j = foreign s j := by
    intro j
    funext x
    simp only [foreign, hdials]
  have hview : t.view i = quiet (Conn.new s.nextConn) s.now s.nextDial s.pushed := by
    have hidle := (h.good i).idle
    simp only [State.view] at hidle
    simp [State.view, quiet, hcells, hnow, hdial, hpushed, hbusy, hidle]
  have hids : Ids (foreign t i) (Conn.new s.nextConn).proxy s.nextDial s.pushed := by
    rw [hforeign]
    exact (h.good i).ids.gone
  have hothers : ∀ j, j ≠ i → Good cfg.zc (foreign t j) (t.view j) := by
    intro j hji
    have hgood := h.good j
    simpa only [hforeign, State.view, hcells, Function.update_of_ne hji, hnow, hdial, hpushed,
      hbusy] using hgood
  have hplain : Plain (Conn.new s.nextConn) := ⟨rfl, rfl, rfl, rfl⟩
  have hsome : (t.cells i).conn.isSome := by simp [hcells]
  cases refused with
  | none =>
    refine inv_put hslab hsome ?_ hothers (hmis.trans h.delivered)
    rw [hview]
    exact quiet_armRecv hids hplain
  | some canSplit =>
    refine inv_put hslab hsome ?_ hothers (hmis.trans h.delivered)
    rw [hview]
    exact quiet_stageResponse hids hplain false canSplit

theorem complete_inv {n : ℕ} {o : Op} (r : Result) (h : Inv cfg.zc s)
    (ho : (s.cells i).ops[n]? = some o) :
    Inv cfg.zc { s.put i (handle cfg { s.view i with ops := uncompleted (s.cells i).ops n o r } o r)
      with misdelivered := s.misdelivered || !owned (s.cells i).conn o } := by
  obtain ⟨howned, hgood⟩ := (h.good i).complete (r := r) ho
  have hsome : (s.cells i).conn.isSome := by
    refine (h.good i).present (.inl fun hnil => ?_)
    have hops : (s.cells i).ops = [] := hnil
    simp [hops] at ho
  obtain ⟨hslab, hall, hdel⟩ := h.put hsome hgood
  have howned : owned (s.cells i).conn o = true := howned
  exact ⟨⟨hslab.freed, hslab.nodup, hslab.beyond⟩, hall, by simp [howned, h.delivered]⟩

theorem reply_inv {id : ℕ} {rest : List ℕ} (r : Reply) (h : Inv cfg.zc s)
    (hr : (s.cells i).replies = id :: rest) :
    Inv cfg.zc (s.put i (onReply cfg { s.view i with replies := rest } r)) := by
  refine h.put ((h.good i).present (.inr ?_)) ((h.good i).reply r hr)
  simp [State.view, hr]

/-- What a sweep may find expired: a dial awaiting its head, with a serve thread that takes its
failure. -/
def Calm (s : State) (ok : ℕ → Bool) (i : ℕ) : Prop :=
  expired s i = true ∧ (s.cells i).ops = [] ∧ ok i = true

theorem sweepOne_inv {ok : ℕ → Bool} (h : Inv cfg.zc s) (hi : Calm s ok i) :
    Inv cfg.zc (sweepOne ok s i) := by
  obtain ⟨hexp, hops, hok⟩ := hi
  obtain ⟨d, hd⟩ : ∃ d, (s.view i).conn.bind Conn.proxy = some d := by
    cases hd : (s.cells i).conn.bind Conn.proxy with
    | none => simp [expired, hd] at hexp
    | some d => exact ⟨d, hd⟩
  have hsome : (s.cells i).conn.isSome := by
    obtain ⟨c, hc, -⟩ := Option.bind_eq_some_iff.mp hd
    exact Option.isSome_iff_exists.mpr ⟨c, hc⟩
  obtain ⟨hstream, hgood⟩ := (h.good i).timeout hd hops
  simp only [sweepOne, hd, Option.any_some, hstream, Bool.false_eq_true, if_false, Option.map_some,
    hok]
  exact h.put hsome hgood

theorem Calm.other {ok : ℕ → Bool} (hj : Calm s ok j) (hji : j ≠ i) : Calm (sweepOne ok s i) ok j := by
  have hcell : (sweepOne ok s i).cells j = s.cells j ∧ (sweepOne ok s i).now = s.now := by
    unfold sweepOne
    dsimp only
    split <;> exact ⟨Function.update_of_ne hji .., rfl⟩
  simpa only [Calm, expired, hcell.1, hcell.2] using hj

theorem sweep_inv {ok : ℕ → Bool} {slots : List ℕ} (h : Inv cfg.zc s) (hnodup : slots.Nodup)
    (hcalm : ∀ i ∈ slots, Calm s ok i) : Inv cfg.zc (slots.foldl (sweepOne ok) s) := by
  induction slots generalizing s with
  | nil => exact h
  | cons i slots ih =>
    obtain ⟨hi, hnodup⟩ := List.nodup_cons.mp hnodup
    refine ih (sweepOne_inv h (hcalm i List.mem_cons_self)) hnodup ?_
    intro j hj
    refine (hcalm j (List.mem_cons_of_mem _ hj)).other ?_
    rintro rfl
    exact hi hj

/-- No sweep finds an expired dial whose connection has an operation with the kernel, or whose
failure the serve thread does not take. -/
def unhurried (s : State) : Action → Bool
  | .sweep ok => (List.range s.len).all fun i =>
    !expired s i || ((s.cells i).ops.isEmpty && ok i)
  | _ => true

theorem step_inv {a : Action} (h : Inv cfg.zc s) (ha : unhurried s a = true)
    (hstep : step cfg s a = some t) : Inv cfg.zc t := by
  cases a with
  | accept refused =>
    obtain rfl := Option.some.inj hstep
    exact onAccept_inv h refused
  | complete i n r =>
    simp only [step] at hstep
    split at hstep
    · cases hstep
    · rename_i o ho
      obtain rfl := Option.some.inj hstep
      exact complete_inv r h ho
  | reply i r =>
    simp only [step] at hstep
    split at hstep
    · cases hstep
    · rename_i id rest hr
      obtain rfl := Option.some.inj hstep
      exact reply_inv r h hr
  | tick =>
    obtain rfl := Option.some.inj hstep
    exact ⟨⟨h.slab.freed, h.slab.nodup, h.slab.beyond⟩,
      fun i => ⟨(h.good i).mode, (h.good i).ids, (h.good i).idle⟩, h.delivered⟩
  | sweep ok =>
    obtain rfl := Option.some.inj hstep
    refine sweep_inv h (List.nodup_range.filter _) ?_
    intro i hi
    obtain ⟨hlt, hexp⟩ := List.mem_filter.mp hi
    have hquiet := List.all_eq_true.mp ha i hlt
    simp only [hexp, Bool.not_true, Bool.false_or, Bool.and_eq_true, List.isEmpty_iff] at hquiet
    exact ⟨hexp, hquiet.1, hquiet.2⟩

theorem inv_of_run {acts : List Action}
    (hok : Meets (step cfg) (fun s a => unhurried s a = true) init acts)
    (hrun : run (step cfg) init acts = some s) : Inv cfg.zc s := by
  have keep : ∀ {s t : State} {a : Action}, Inv cfg.zc s → unhurried s a = true →
      step cfg s a = some t → Inv cfg.zc t := fun h ha hstep => step_inv h ha hstep
  exact invariant_of_meets keep init_inv hok hrun

private theorem mode_receive_alone {conn : Option Conn} {ops : List Op} {replies : List ℕ} {o : Op}
    (h : Mode zc conn ops replies) (ho : o ∈ ops) (hkind : o.kind = .recv ∨ o.kind = .recvBr) :
    ops = [o] ∧ replies = [] := by
  cases h with
  | free | serving _ _ _ | heading _ _ _ | swept _ _ _ => cases ho
  | receiving _ _ =>
    obtain rfl := List.mem_singleton.mp ho
    exact ⟨rfl, rfl⟩
  | sendingZc _ _ hcounted _ =>
    rcases (hcounted.kinds o ho).1 with hk | hk <;> rw [hk] at hkind <;> simp at hkind
  | sending _ _ | splitting _ _ =>
    obtain rfl := List.mem_singleton.mp ho
    simp at hkind
  | static op _ _ =>
    obtain rfl := List.mem_singleton.mp ho
    cases op <;> simp [StaticOp.kind] at hkind
  | dialing hk _ _ =>
    obtain rfl := List.mem_singleton.mp ho
    rcases hk with rfl | rfl | rfl <;> simp at hkind

/-- A receive with the kernel is all its slot waits for: no second receive, no send that reads a
leased buffer, and no serve thread that has one. `BufferLeases.State.OneReceive` asks for this. -/
theorem receive_alone {acts : List Action}
    (hok : Meets (step cfg) (fun s a => unhurried s a = true) init acts)
    (hrun : run (step cfg) init acts = some s) {o : Op} (ho : o ∈ (s.cells i).ops)
    (hkind : o.kind = .recv ∨ o.kind = .recvBr) :
    (s.cells i).ops = [o] ∧ (s.cells i).replies = [] :=
  mode_receive_alone ((inv_of_run hok hrun).good i).mode ho hkind

/-- In every run whose sweeps find no operation of an expired dial's connection with the kernel,
each completion is handled against the connection and the dial that submitted it, nothing is
dropped that an operation points to, and no dial pushes a second result. -/
theorem completions_reach_owners {acts : List Action}
    (hok : Meets (step cfg) (fun s a => unhurried s a = true) init acts)
    (hrun : run (step cfg) init acts = some s) :
    s.misdelivered = false ∧ s.busyDrop = false ∧ s.pushed.Nodup := by
  have h := inv_of_run hok hrun
  exact ⟨h.delivered, (h.good 0).idle, (h.good 0).ids.once⟩

def copying : Cfg := ⟨false, false, 5, 100⟩

private def completed (proxy : ProxyResult) : Result :=
  ⟨.received .step, ⟨false, false, false, true, .close⟩, proxy, .failed, true⟩

private def answered (step : StepReply) : Reply := ⟨true, .head, step, false, false⟩

/-- A request is received, its step asks for a dial, and the connect is with the kernel. -/
def dialRun : List Action :=
  [.accept none, .complete 0 0 (completed .failed), .reply 0 (answered .proxy)]

/-- The dial connects and sends, its upstream's head is with the serve thread when it expires;
the head and the step that follows the failure come back, and the slot is given to the next
connection. -/
def sweptRun : List Action :=
  dialRun ++ [.complete 0 0 (completed (.ok .more)), .complete 0 0 (completed (.ok .more)),
    .complete 0 0 (completed (.ok .head)), .tick, .tick, .tick, .tick, .tick,
    .sweep fun _ => true, .reply 0 (answered .proxy), .reply 0 (answered (.done false)),
    .complete 0 0 (completed .failed), .accept none]

theorem sweptRun_owned : ∃ s, run (step copying) init sweptRun = some s ∧ s.pushed = [0] ∧
    s.nextConn = 2 ∧ s.len = 1 ∧
    (s.misdelivered = false ∧ s.busyDrop = false ∧ s.pushed.Nodup) := by
  have hrun : ∃ s, run (step copying) init sweptRun = some s ∧ s.pushed = [0] ∧
      s.nextConn = 2 ∧ s.len = 1 := ⟨_, rfl, rfl, rfl, rfl⟩
  obtain ⟨s, hrun, hpushed, hconn, hlen⟩ := hrun
  exact ⟨s, hrun, hpushed, hconn, hlen, completions_reach_owners (by decide) hrun⟩

/-- The connect is still with the kernel when its dial expires. The sweep drops the dial, and
pushes its failure; the connect fails later, finds no dial, and pushes the failure again. -/
theorem expired_connect_pushes_twice :
    ∃ s, run (step copying) init (dialRun ++ [.tick, .tick, .tick, .tick, .tick,
      .sweep fun _ => true, .complete 0 0 (completed .failed)]) = some s ∧
      s.busyDrop = true ∧ s.misdelivered = true ∧ s.pushed = [0, 0] ∧
      (s.cells 0).conn.map Conn.step = some (some [some 0, some 0]) :=
  ⟨_, rfl, rfl, rfl, rfl, rfl⟩

end DragonsNet.Dataplane.ShardOwners
