/- GID: DragonsNet/Dataplane/StaticAlone
   source: migration/dataplane/host/src/uring.rs
   digest: A static send alone on its shard, whose operations fail only where they must. -/

import DragonsNet.Dataplane.StaticLane

set_option autoImplicit false

namespace DragonsNet.Dataplane.StaticAlone

open Lib.Runs (run Meets run_cons run_append)
open Dataplane.StaticPlans (Octets StaticSeg)
open Dataplane.StaticDrive
open Dataplane.StaticLane

/-- A shard with its pipe and zero-copy on. -/
def ring : Cfg := ⟨true, true⟩

/-- The shard once `dispatch_static` has this plan, the first of the shard. -/
def dispatched (file : Octets) (segs : List StaticSeg) : Shard 1 :=
  (dispatchStatic ring (start 1) ⟨0, Nat.one_pos⟩ file segs).getD (start 1)

/-- The operation moves no octet: a send of none, or a splice at a refused offset or from the
file's end on. -/
def refused (ss : StaticSend) : Op → Bool
  | .send data => data.isEmpty
  | .spliceIn off _ =>
    match spliceFrom off ss.pos with
    | none => true
    | some p => decide (ss.file.length ≤ p)
  | .spliceOut _ => false

/-- No other send is dispatched, and an operation fails only where it moves no octet. -/
def lone (s : Shard 1) : Action 1 → Bool
  | .perform _ _ => true
  | .complete _ => true
  | .fail i _ =>
    match s.slots i with
    | some (ss, .submitted op) => refused ss op
    | _ => false
  | _ => false

/-- What a send alone has done after so many steps: it comes to its end within a bound, and has then
written the whole plan, or closed after less where a window passes the end. -/
structure RingWrites (file : Octets) (segs : List StaticSeg) (acts : List (Action 1))
    (s : Shard 1) : Prop where
  bounded : acts.length ≤ 4 * (planned file segs).length + 3
  goesOn : (∃ a t, lone s a = true ∧ step ring s a = some t) ∨ s.finished ≠ [] ∨ s.closed ≠ []
  written : ∀ ss f, s.slots 0 = some (ss, f) → ss.wire.map some <+: planned file segs
  finished : ∀ ss ∈ s.finished, ss.wire.map some = planned file segs
  closed : ∀ ss ∈ s.closed, ss.wire.map some <+: planned file segs ∧ none ∈ planned file segs

/-- So it is after any steps. -/
def RingAgrees (file : Octets) (segs : List StaticSeg) : Prop :=
  ∀ acts s, Meets (step ring) (fun s a => lone s a = true) (dispatched file segs) acts →
    run (step ring) (dispatched file segs) acts = some s → RingWrites file segs acts s

/-! ## The one send -/

variable {file : Octets} {segs : List StaticSeg} {s t : Shard 1} {ss : StaticSend} {f : Flight}
  {a : Action 1} {chunk : ℕ}

/-- The send is of this plan. -/
structure Of (file : Octets) (segs : List StaticSeg) (ss : StaticSend) : Prop where
  file : ss.file = file
  plan : ss.plan = segs
  segs : ss.segs = segs

/-- Why a send that has not gone astray is closed: a window passes the end, or a literal is too long
to be sent. -/
def Stops (file : Octets) (segs : List StaticSeg) : Prop :=
  astray file segs = false ∧ (none ∈ planned file segs ∨ oversized segs = true)

/-- Where the one send is. -/
inductive Place (file : Octets) (segs : List StaticSeg) (s : Shard 1) : Prop
  | sending {ss : StaticSend} {f : Flight} (slot : s.slots 0 = some (ss, f)) (of : Of file segs ss)
      (unfinished : s.finished = []) (unclosed : s.closed = [])
      (stops : ∀ op res, f = .done op res → res ≤ 0 → ss.pipeBytes = 0 ∧ Stops file segs)
  | finished {ss : StaticSend} (slot : s.slots 0 = none) (of : Of file segs ss)
      (done : s.finished = [ss]) (unclosed : s.closed = [])
      (sent : astray file segs = false ∧ oversized segs = false)
  | closed {ss : StaticSend} (slot : s.slots 0 = none) (of : Of file segs ss)
      (unfinished : s.finished = []) (done : s.closed = [ss]) (stops : Stops file segs)

structure Lone (file : Octets) (segs : List StaticSeg) (s : Shard 1) : Prop where
  inv : Inv s
  next : s.next = 1
  idle : s.draining = none
  place : Place file segs s

private theorem Lone.pipe_own (h : Lone file segs s) (hslot : s.slots 0 = some (ss, f)) :
    ∀ x ∈ s.pipe, x.1 = ss.number := by
  intro x hx
  have hx := h.inv.owners x hx
  have hss := (h.inv.sends 0 ss f hslot).2
  rw [h.next] at hx hss
  omega

private theorem Lone.own_eq (h : Lone file segs s) (hslot : s.slots 0 = some (ss, f)) :
    own ss.number s.pipe = s.pipe.map Prod.snd :=
  own_of_all (h.pipe_own hslot)

theorem Of.advance (h : Of file segs ss) (op : Op) (k : ℕ) : Of file segs (advance ss op k) := by
  obtain ⟨-, hfile, hplan, -, hsegs⟩ := advance_wire ss op k
  exact ⟨hfile.trans h.file, hplan.trans h.plan, hsegs.trans h.segs⟩

theorem Of.driveStatic (h : Of file segs ss) : Of file segs (driveStatic ss).1 := by
  obtain ⟨hfile, hsegs, hplan, -⟩ := driveStatic_kept ss
  exact ⟨hfile.trans h.file, hplan.trans h.plan, hsegs.trans h.segs⟩

theorem setSlot_self (s : Shard 1) (v : Option (StaticSend × Flight)) :
    (s.setSlot 0 v).slots 0 = v := by
  simp only [Shard.setSlot, Function.update_self]

private theorem submit_place {pipe : Octets} (hcursor : Cursor pipe ss) (hof : Of file segs ss)
    (hunfinished : s.finished = []) (hunclosed : s.closed = []) :
    Place file segs (submit s 0 (driveStatic ss)) := by
  have hof' := hof.driveStatic
  obtain ⟨-, hcursor', hdriven⟩ := driveStatic_driven hcursor
  unfold submit
  split
  · refine .sending (setSlot_self s _) hof' hunfinished hunclosed fun op res hdone => ?_
    cases hdone
  · rename_i hnone
    rw [hnone] at hdriven
    have hastray := hcursor'.astray
    have hoversized := hcursor'.oversized
    rw [hdriven.1, hof'.segs] at hastray hoversized
    rw [hof'.file] at hastray
    exact .finished (setSlot_self s none) hof' (congrArg _ hunfinished) hunclosed
      ⟨hastray.symm, hoversized.symm⟩

private theorem submit_idle (r : StaticSend × Option Op) : (submit s 0 r).next = s.next ∧
    (submit s 0 r).draining = s.draining ∧ (submit s 0 r).closed = s.closed := by
  unfold submit
  split <;> exact ⟨rfl, rfl, rfl⟩

private theorem dispatched_lone : Lone file segs (dispatched file segs) := by
  have hinv : Inv (dispatched file segs) :=
    @dispatchStatic_inv 1 ring (start 1) _ 0 file segs start_inv rfl
  obtain ⟨hnext, hidle, -⟩ :=
    @submit_idle { start 1 with next := 1 } (driveStatic (.new 0 file segs segs))
  refine ⟨hinv, hnext, hidle, ?_⟩
  exact @submit_place file segs { start 1 with next := 1 } (.new 0 file segs segs) []
    (new_cursor rfl) ⟨rfl, rfl, rfl⟩ rfl rfl

/-! ## Steps -/

/-- A splice that moves nothing asks past the file's end, wherever the kernel was to read. -/
private theorem passes_of_refused {off chunk : ℕ} (hpos : ss.pos = 0)
    (hfile : ss.file.length < 2 ^ 63) (h : refused ss (.spliceIn off chunk) = true) :
    ss.file.length ≤ off ∧ (off = 2 ^ 64 - 1 → ss.file = []) := by
  simp only [refused] at h
  split at h
  · rename_i hnone
    unfold spliceFrom at hnone
    split_ifs at hnone with hoff hlast
    exact ⟨by omega, fun heq => absurd heq hlast⟩
  · rename_i p hfrom
    have hle := of_decide_eq_true h
    unfold spliceFrom at hfrom
    split_ifs at hfrom with hoff hlast
    · rw [← Option.some.inj hfrom] at hle
      exact ⟨hle, fun heq => by omega⟩
    · rw [← Option.some.inj hfrom, hpos] at hle
      exact ⟨by omega, fun _ => List.eq_nil_of_length_eq_zero (by omega)⟩

/-- An operation that moves no octet, though the cursor asks for it, means that the plan stops. -/
theorem stops_of_refused {pipe : Octets} {op : Op} (hcursor : Cursor pipe ss) (hasks : Asks ss op)
    (hof : Of file segs ss) (hfile : file.length < 2 ^ 63) (h : refused ss op = true) :
    ss.pipeBytes = 0 ∧ Stops file segs := by
  cases op with
  | send data =>
    obtain ⟨b, rest, hs, htodo, hmore, rfl⟩ := hasks
    refine ⟨hcursor.quiet (by simp only [inWindow, hs, htodo]), ?_⟩
    have hempty : (b.length - ss.bufSent) % 2 ^ 32 = 0 := by
      have hlen := congrArg List.length (List.isEmpty_iff.mp h)
      rw [List.length_take, List.length_drop, List.length_nil] at hlen
      omega
    have hbig : 2 ^ 32 ≤ (b.drop ss.bufSent).length := by
      rw [List.length_drop]
      omega
    have hastray := hcursor.astray
    have hoversized := hcursor.oversized
    rw [remains_buf hs htodo, hof.segs] at hastray hoversized
    rw [hof.file, astray, decide_eq_false (by omega), Bool.false_and] at hastray
    refine ⟨hastray.symm, .inr ?_⟩
    rw [← hoversized]
    simp only [oversized, List.any_cons, hbig, decide_true, Bool.true_or]
  | spliceIn off chunk =>
    obtain ⟨hin, hzero, hmore, rfl, rfl⟩ := hasks
    obtain ⟨o, n, rest, -, -, hremains⟩ := remains_window hin
    refine ⟨hzero, ?_⟩
    obtain ⟨hoff, hempty⟩ := passes_of_refused hcursor.fresh (hof.file ▸ hfile) h
    rw [hof.file] at hoff hempty
    have hastray := hcursor.astray
    rw [hremains, hof.file, hof.segs, astray, if_neg hmore.ne'] at hastray
    refine ⟨?_, .inl ?_⟩
    · rw [← hastray]
      split_ifs with hlast
      · rw [hempty hlast]
        rfl
      · rw [decide_eq_false (by omega), Bool.false_and]
    · have hsplit := hcursor.split
      rw [hof.file, hof.plan, hremains, planned_cons] at hsplit
      rw [hsplit]
      exact List.mem_append_right _
        (List.mem_append_left _ (none_mem_plannedSeg.mpr ⟨hmore, by omega⟩))
  | spliceOut n => cases h

/-- The kernel is asked to read at the offset that stands for the file's position. -/
def Strays {n : ℕ} (s : Shard n) (i : Fin n) : Prop :=
  ∃ ss chunk, s.slots i = some (ss, .submitted (.spliceIn (2 ^ 64 - 1) chunk))

private theorem alone_of_lone (h : Lone file segs s)
    (hstrays : ∀ k, a = .perform 0 k → ¬ Strays s 0) :
    alone s a = true := by
  cases a with
  | perform i k =>
    obtain rfl : i = 0 := Subsingleton.elim i 0
    simp only [alone]
    split
    · rename_i ss off chunk hslot
      rw [Bool.and_eq_true, bne_iff_ne, List.all_eq_true]
      refine ⟨?_, fun x hx => beq_iff_eq.mpr (h.pipe_own hslot x hx)⟩
      rintro rfl
      exact hstrays k rfl ⟨ss, chunk, hslot⟩
    · rfl
  | _ => rfl

/-- Each kind of step of a lone send. -/
theorem lone_step_cases (hslot : s.slots 0 = some (ss, f)) (hidle : s.draining = none)
    (hlone : lone s a = true) (hstep : step ring s a = some t) :
    (∃ op, ∃ k : ℕ, ∃ pipe ss', f = .submitted op ∧ a = .perform 0 k ∧ 0 < k ∧
      t = { s.setSlot 0 (some (ss', .done op k)) with pipe := pipe } ∧
      2 * ss.wire.length + s.pipe.length < 2 * ss'.wire.length + pipe.length ∧
      (Of file segs ss → Of file segs ss')) ∨
    (∃ op res, f = .submitted op ∧ refused ss op = true ∧ res ≤ 0 ∧
      t = s.setSlot 0 (some (ss, .done op res))) ∨
    ∃ op res, f = .done op res ∧
      t = if res ≤ 0 then closeStatic ring s 0 ss
        else submit s 0 (driveStatic (advance ss op res.toNat)) := by
  cases a with
  | dispatch i file plan => cases hlone
  | drainRead k => cases hlone
  | drainFail => cases hlone
  | perform i k =>
    obtain rfl : i = 0 := Subsingleton.elim i 0
    simp only [step, perform, hslot] at hstep
    split_ifs at hstep with hbad
    have hpos : 0 < k := by omega
    cases f with
    | done op res => cases hstep
    | submitted op =>
      cases op with
      | send data =>
        dsimp only at hstep
        split_ifs at hstep with hle
        cases hstep
        refine .inl ⟨_, k, s.pipe, _, rfl, rfl, hpos, rfl, ?_, fun h => ⟨h.file, h.plan, h.segs⟩⟩
        rw [List.length_append, List.length_take]
        omega
      | spliceIn off chunk =>
        dsimp only at hstep
        split at hstep
        · cases hstep
        · split_ifs at hstep with hle
          cases hstep
          refine .inl ⟨_, k, _, _, rfl, rfl, hpos, rfl, ?_, fun h => ⟨h.file, h.plan, h.segs⟩⟩
          rw [List.length_append, List.length_map, List.length_take]
          dsimp only
          omega
      | spliceOut m =>
        dsimp only at hstep
        split_ifs at hstep with hle
        cases hstep
        refine .inl ⟨_, k, _, _, rfl, rfl, hpos, rfl, ?_, fun h => ⟨h.file, h.plan, h.segs⟩⟩
        rw [List.length_append, List.length_map, List.length_take, List.length_drop]
        omega
  | fail i res =>
    obtain rfl : i = 0 := Subsingleton.elim i 0
    simp only [step, fail, hslot] at hstep
    simp only [lone, hslot] at hlone
    cases f with
    | done op res' => cases hstep
    | submitted op =>
      dsimp only at hstep hlone
      split_ifs at hstep with hres
      cases hstep
      exact .inr (.inl ⟨op, res, rfl, hlone, hres, rfl⟩)
  | complete i =>
    obtain rfl : i = 0 := Subsingleton.elim i 0
    simp only [step, complete, hslot, hidle] at hstep
    cases f with
    | submitted op => cases hstep
    | done op res =>
      cases hstep
      exact .inr (.inr ⟨op, res, rfl, rfl⟩)

private theorem no_step_of_none (hslot : s.slots 0 = none) (hlone : lone s a = true) :
    step ring s a = none := by
  cases a with
  | dispatch i file plan => cases hlone
  | drainRead k => cases hlone
  | drainFail => cases hlone
  | perform i k =>
    obtain rfl : i = 0 := Subsingleton.elim i 0
    simp only [step, perform, hslot, ite_self]
  | fail i res =>
    obtain rfl : i = 0 := Subsingleton.elim i 0
    simp only [step, fail, hslot]
  | complete i =>
    obtain rfl : i = 0 := Subsingleton.elim i 0
    simp only [step, complete, hslot]
    cases s.draining <;> rfl

private theorem closeStatic_eq (hzero : ss.pipeBytes = 0) :
    closeStatic ring s 0 ss = { s.setSlot 0 none with closed := ss :: s.closed } := by
  rw [closeStatic, hzero, if_neg]
  rintro ⟨hpos, -⟩
  exact Nat.lt_irrefl 0 hpos

theorem Lone.keeps (h : Lone file segs s) (hfile : file.length < 2 ^ 63) (hlone : lone s a = true)
    (halone : alone s a = true) (hstep : step ring s a = some t) :
    Lone file segs t := by
  have hinv := step_inv h.inv halone hstep
  cases h.place with
  | finished hslot _ _ _ _ | closed hslot _ _ _ _ =>
    rw [no_step_of_none hslot hlone] at hstep
    cases hstep
  | @sending ss f hslot hof hunfinished hunclosed hstops =>
    rcases @lone_step_cases file segs s t ss f a hslot h.idle hlone hstep with
      ⟨op, k, pipe, ss', rfl, -, hk, rfl, -, hof'⟩ | ⟨op, res, rfl, href, -, rfl⟩ |
      ⟨op, res, rfl, rfl⟩
    · refine ⟨hinv, h.next, h.idle, .sending (setSlot_self s _) (hof' hof) hunfinished hunclosed ?_⟩
      intro op' res hdone hres
      cases hdone
      omega
    · obtain ⟨⟨hcursor, hasks⟩, -⟩ := h.inv.sends 0 ss _ hslot
      refine ⟨hinv, h.next, h.idle, .sending (setSlot_self s _) hof hunfinished hunclosed ?_⟩
      intro op' res' hdone hres'
      exact stops_of_refused hcursor hasks hof hfile href
    · split_ifs at hinv ⊢ with hres
      · obtain ⟨hzero, hstop⟩ := hstops op res rfl hres
        rw [closeStatic_eq hzero] at hinv ⊢
        exact ⟨hinv, h.next, h.idle,
          .closed (setSlot_self s none) hof hunfinished (congrArg _ hunclosed) hstop⟩
      · obtain ⟨hnext, hidle, -⟩ := @submit_idle s (driveStatic (advance ss op res.toNat))
        exact ⟨hinv, hnext.trans h.next, hidle.trans h.idle,
          submit_place ((h.inv.sends 0 ss _ hslot).1.1 (not_le.mp hres)) (hof.advance op res.toNat)
            hunfinished hunclosed⟩

/-! ## How far a send has come -/

/-- An octet counts once in the pipe and twice on the wire. -/
def moved {n : ℕ} (file : Octets) (segs : List StaticSeg) (s : Shard n) (i : Fin n) : ℕ :=
  match s.slots i with
  | some (ss, .submitted _) => 2 * (2 * ss.wire.length + s.pipe.length) + 1
  | some (ss, .done _ res) =>
    if 0 < res then 2 * (2 * ss.wire.length + s.pipe.length)
    else 4 * (planned file segs).length + 2
  | none => 4 * (planned file segs).length + 3

private theorem Lone.cursor (h : Lone file segs s) (hslot : s.slots 0 = some (ss, f))
    (hof : Of file segs ss) : ∃ tt, Cursor (s.pipe.map Prod.snd) tt ∧ Of file segs tt ∧
      tt.wire = ss.wire := by
  have htracks := (h.inv.sends 0 ss f hslot).1
  have hown := h.own_eq hslot
  cases f with
  | submitted op =>
    refine ⟨ss, ?_, hof, rfl⟩
    rw [← hown]
    exact htracks.1
  | done op res =>
    rcases lt_or_ge 0 res with hpos | hneg
    · refine ⟨advance ss op res.toNat, ?_, hof.advance _ _, (advance_wire ss op res.toNat).1⟩
      rw [← hown]
      exact htracks.1 hpos
    · refine ⟨ss, ?_, hof, rfl⟩
      rw [← hown]
      exact htracks.2 hneg

private theorem Lone.size_le (h : Lone file segs s) (hslot : s.slots 0 = some (ss, f))
    (hof : Of file segs ss) : ss.wire.length + s.pipe.length ≤ (planned file segs).length := by
  obtain ⟨tt, hcursor, htt, hwire⟩ := h.cursor hslot hof
  have hsplit := congrArg List.length hcursor.split
  rw [htt.file, htt.plan, hwire, List.length_append, List.length_map, List.length_append,
    List.length_map] at hsplit
  omega

private theorem Lone.moved_le (h : Lone file segs s) :
    moved file segs s 0 ≤ 4 * (planned file segs).length + 3 := by
  cases h.place with
  | finished hslot _ _ _ _ => rw [moved, hslot]
  | closed hslot _ _ _ _ => rw [moved, hslot]
  | @sending ss f hslot hof _ _ _ =>
    have hsize := h.size_le hslot hof
    rw [moved, hslot]
    cases f with
    | submitted op =>
      dsimp only
      omega
    | done op res =>
      dsimp only
      split_ifs <;> omega

private theorem Lone.moved_lt (h : Lone file segs s) (hlone : lone s a = true)
    (hstep : step ring s a = some t) :
    moved file segs s 0 < moved file segs t 0 := by
  cases h.place with
  | finished hslot _ _ _ _ | closed hslot _ _ _ _ =>
    rw [no_step_of_none hslot hlone] at hstep
    cases hstep
  | @sending ss f hslot hof _ _ hstops =>
    have hsize := h.size_le hslot hof
    rw [moved, hslot]
    rcases @lone_step_cases file segs s t ss f a hslot h.idle hlone hstep with
      ⟨op, k, pipe, ss', rfl, -, hk, rfl, hmoved, -⟩ | ⟨op, res, rfl, -, hres, rfl⟩ |
      ⟨op, res, rfl, rfl⟩
    · have hslot' : ({ s.setSlot 0 (some (ss', .done op k)) with pipe := pipe } : Shard 1).slots 0 =
          some (ss', .done op k) := setSlot_self s _
      rw [moved, hslot']
      dsimp only
      rw [if_pos (by omega)]
      omega
    · rw [moved, setSlot_self]
      dsimp only
      rw [if_neg (by omega)]
      omega
    · dsimp only
      split_ifs with hpos hres
      · omega
      · obtain ⟨hwire, -⟩ := advance_wire ss op res.toNat
        obtain ⟨-, -, -, hwire'⟩ := driveStatic_kept (advance ss op res.toNat)
        unfold submit
        split
        · rw [moved, setSlot_self]
          dsimp only [Shard.setSlot]
          rw [hwire', hwire]
          omega
        · have hslot' : ({ s.setSlot 0 none with finished :=
              (driveStatic (advance ss op res.toNat)).1 :: s.finished } : Shard 1).slots 0 = none :=
            setSlot_self s none
          rw [moved, hslot']
          dsimp only
          omega
      · rename_i hres
        rw [closeStatic_eq (hstops op res rfl hres).1]
        have hslot' : ({ s.setSlot 0 none with closed := ss :: s.closed } : Shard 1).slots 0 = none :=
          setSlot_self s none
        rw [moved, hslot']
        dsimp only
        omega
      · omega

private theorem Lone.goesOn (h : Lone file segs s) :
    (∃ a t, lone s a = true ∧ step ring s a = some t) ∨ s.finished ≠ [] ∨
      s.closed ≠ [] := by
  cases h.place with
  | finished _ _ hdone _ _ => exact .inr (.inl (by rw [hdone]; exact List.cons_ne_nil _ _))
  | closed _ _ _ hdone _ => exact .inr (.inr (by rw [hdone]; exact List.cons_ne_nil _ _))
  | @sending ss f hslot hof _ _ _ =>
    refine .inl ?_
    cases f with
    | done op res =>
      refine ⟨.complete 0, ?_⟩
      simp only [lone, true_and, step, complete, h.idle, hslot]
      exact ⟨_, rfl⟩
    | submitted op =>
      obtain ⟨⟨hcursor, hasks⟩, -⟩ := h.inv.sends 0 ss _ hslot
      by_cases href : refused ss op = true
      · refine ⟨.fail 0 0, ?_⟩
        simp only [lone, hslot, href, true_and, step, fail, le_refl, if_true]
        exact ⟨_, rfl⟩
      · refine ⟨.perform 0 1, ?_⟩
        simp only [lone, true_and, step, perform, hslot, Nat.one_ne_zero, false_or,
          show ¬ 2 ^ 31 ≤ 1 by decide, if_false]
        cases op with
        | send data =>
          have hpos : 1 ≤ data.length := by
            cases data with
            | nil => exact absurd rfl href
            | cons b data => exact Nat.succ_le_succ (Nat.zero_le _)
          exact ⟨_, if_pos hpos⟩
        | spliceIn off chunk =>
          obtain ⟨-, -, hmore, -, rfl⟩ := hasks
          have hchunk : 1 ≤ min ss.winRemaining SPLICE_CHUNK := le_min hmore (by decide)
          simp only [refused] at href
          dsimp only
          cases hfrom : spliceFrom off ss.pos with
          | none =>
            rw [hfrom] at href
            exact absurd rfl href
          | some p =>
            rw [hfrom, decide_eq_true_eq, not_le] at href
            refine ⟨_, if_pos ⟨hchunk, ?_⟩⟩
            rw [List.length_drop]
            omega
        | spliceOut m =>
          obtain ⟨-, rfl, hpos⟩ := hasks
          have hcount := hcursor.count
          rw [h.own_eq hslot, List.length_map] at hcount
          exact ⟨_, if_pos ⟨hpos, by omega⟩⟩

/-! ## Runs -/

/-- At such an offset the file has octets to read exactly where the plan goes astray. -/
theorem Lone.strays (h : Lone file segs s)
    (hslot : s.slots 0 = some (ss, .submitted (.spliceIn (2 ^ 64 - 1) chunk)))
    (hof : Of file segs ss) : astray file segs = !file.isEmpty := by
  obtain ⟨⟨hcursor, hin, -, hmore, hoff, -⟩, -⟩ := h.inv.sends 0 ss _ hslot
  obtain ⟨o, n, rest, -, -, hremains⟩ := remains_window hin
  have hsame := hcursor.astray
  rw [hremains, hof.file, hof.segs, astray, if_neg hmore.ne', if_pos hoff.symm] at hsame
  exact hsame.symm

private theorem perform_stray {k : ℕ}
    (hslot : s.slots 0 = some (ss, .submitted (.spliceIn (2 ^ 64 - 1) chunk)))
    (hstep : perform s 0 k = some t) :
    0 < k ∧ k ≤ chunk ∧ k ≤ (ss.file.drop ss.pos).length ∧
      t = { s.setSlot 0 (some ({ ss with pos := ss.pos + k },
          .done (.spliceIn (2 ^ 64 - 1) chunk) k)) with
        pipe := s.pipe ++ ((ss.file.drop ss.pos).take k).map (ss.number, ·) } := by
  simp only [perform, hslot] at hstep
  split_ifs at hstep with hbad
  have hfrom : spliceFrom (2 ^ 64 - 1) ss.pos = some ss.pos := rfl
  rw [hfrom] at hstep
  dsimp only at hstep
  split_ifs at hstep with hle
  cases hstep
  exact ⟨by omega, hle.1, hle.2, rfl⟩

private theorem Lone.alone_of_calm (h : Lone file segs s) (hcalm : astray file segs = false)
    (hstep : step ring s a = some t) : alone s a = true := by
  refine alone_of_lone h ?_
  rintro k rfl ⟨ss, chunk, hslot⟩
  obtain ⟨hpos, -, hle, -⟩ := perform_stray hslot hstep
  cases h.place with
  | finished hnone _ _ _ _ | closed hnone _ _ _ _ =>
    rw [hnone] at hslot
    cases hslot
  | sending hslot' hof _ _ _ =>
    rw [hslot] at hslot'
    cases hslot'
    have hempty := h.strays hslot hof
    rw [hcalm] at hempty
    rw [hof.file, List.isEmpty_iff.mp ((Bool.not_eq_false' _).mp hempty.symm), List.drop_nil,
      List.length_nil] at hle
    omega

theorem Lone.run (h : Lone file segs s) (hfile : file.length < 2 ^ 63)
    (hcalm : astray file segs = false) {acts : List (Action 1)}
    (hmeets : Meets (step ring) (fun s a => lone s a = true) s acts)
    (hrun : Lib.Runs.run (step ring) s acts = some t) :
    Lone file segs t ∧ acts.length + moved file segs s 0 ≤ moved file segs t 0 := by
  induction acts generalizing s with
  | nil =>
    obtain rfl := Option.some.inj hrun
    exact ⟨h, by rw [List.length_nil, Nat.zero_add]⟩
  | cons a acts ih =>
    obtain ⟨m, hstep, hrest⟩ := run_cons hrun
    obtain ⟨hlone, hmeets⟩ := hmeets
    rw [hstep] at hmeets
    have hnext := h.keeps hfile hlone (h.alone_of_calm hcalm hstep) hstep
    obtain ⟨hlast, hlen⟩ := ih hnext hmeets hrest
    have hlt := h.moved_lt hlone hstep
    refine ⟨hlast, ?_⟩
    rw [List.length_cons]
    omega

theorem Lone.writes (h : Lone file segs s)
    (hfits : none ∉ planned file segs → oversized segs = false) {acts : List (Action 1)}
    (hlen : acts.length ≤ 4 * (planned file segs).length + 3) : RingWrites file segs acts s := by
  cases h.place with
  | @sending ss f hslot hof hunfinished hunclosed _ =>
    refine ⟨hlen, h.goesOn, fun tt g htt => ?_, fun tt htt => ?_, fun tt htt => ?_⟩
    · rw [hslot] at htt
      cases htt
      have hwritten := (h.inv.sends 0 ss f hslot).1.written
      rwa [hof.file, hof.plan] at hwritten
    · rw [hunfinished] at htt
      cases htt
    · rw [hunclosed] at htt
      cases htt
  | @finished ss hslot hof hdone hunclosed _ =>
    refine ⟨hlen, h.goesOn, fun tt g htt => ?_, fun tt htt => ?_, fun tt htt => ?_⟩
    · rw [hslot] at htt
      cases htt
    · have hwhole := h.inv.finished tt htt
      rw [hdone, List.mem_singleton] at htt
      rw [htt] at hwhole ⊢
      rwa [hof.file, hof.plan] at hwhole
    · rw [hunclosed] at htt
      cases htt
  | @closed ss hslot hof hunfinished hdone hstops =>
    refine ⟨hlen, h.goesOn, fun tt g htt => ?_, fun tt htt => ?_, fun tt htt => ?_⟩
    · rw [hslot] at htt
      cases htt
    · rw [hunfinished] at htt
      cases htt
    · have hpart := h.inv.closed tt htt
      rw [hdone, List.mem_singleton] at htt
      rw [htt] at hpart ⊢
      rw [hof.file, hof.plan] at hpart
      refine ⟨hpart, ?_⟩
      by_contra hnone
      rcases hstops.2 with hmem | hbig
      · exact hnone hmem
      · rw [hfits hnone] at hbig
        cases hbig

private theorem ring_agrees_of_fits (hfile : file.length < 2 ^ 63)
    (hfits : none ∉ planned file segs → oversized segs = false)
    (hcalm : astray file segs = false) : RingAgrees file segs := by
  intro acts s hmeets hrun
  obtain ⟨hlone, hlen⟩ := dispatched_lone.run hfile hcalm hmeets hrun
  exact hlone.writes hfits (by have := hlone.moved_le; omega)

/-! ## Where a send does not agree -/

/-- A send that agrees comes to its end, so nothing that excludes an end can be kept up. -/
theorem no_endless {J : Shard 1 → Prop} (hagrees : RingAgrees file segs)
    (hstart : J (dispatched file segs)) (hopen : ∀ {s}, J s → s.finished = [] ∧ s.closed = [])
    (hkeep : ∀ {s a t acts}, J s → lone s a = true → step ring s a = some t →
      RingWrites file segs acts t → J t) : False := by
  have hlong : ∀ n, ∃ acts s, acts.length = n ∧
      Meets (step ring) (fun s a => lone s a = true) (dispatched file segs) acts ∧
      run (step ring) (dispatched file segs) acts = some s ∧ J s := by
    intro n
    induction n with
    | zero => exact ⟨[], _, rfl, trivial, rfl, hstart⟩
    | succ n ih =>
      obtain ⟨acts, s, hlen, hmeets, hrun, hj⟩ := ih
      obtain ⟨hunfinished, hunclosed⟩ := hopen hj
      rcases (hagrees acts s hmeets hrun).goesOn with ⟨a, t, hlone, hstep⟩ | hdone | hdone
      · have hmeets' := hmeets.snoc hrun hlone
        have hrun' : run (step ring) (dispatched file segs) (acts ++ [a]) = some t := by
          rw [run_append]
          refine ⟨s, hrun, ?_⟩
          rw [run, hstep]
          rfl
        refine ⟨acts ++ [a], t, ?_, hmeets', hrun', hkeep hj hlone hstep (hagrees _ t hmeets' hrun')⟩
        rw [List.length_append, hlen, List.length_singleton]
      · exact absurd hunfinished hdone
      · exact absurd hunclosed hdone
  obtain ⟨acts, s, hlen, hmeets, hrun, -⟩ := hlong (4 * (planned file segs).length + 4)
  have hbounded := (hagrees acts s hmeets hrun).bounded
  omega

private theorem none_mem_of_astray (hfile : file.length < 2 ^ 63) (h : astray file segs = true) :
    none ∈ planned file segs := by
  rw [none_mem_planned]
  induction segs with
  | nil => cases h
  | cons seg rest ih =>
    cases seg with
    | buf b =>
      obtain ⟨seg, hseg, hpass⟩ := ih (Bool.and_eq_true_iff.mp h).2
      exact ⟨seg, List.mem_cons_of_mem _ hseg, hpass⟩
    | window off n =>
      simp only [astray] at h
      split_ifs at h with hzero hlast
      · obtain ⟨seg, hseg, hpass⟩ := ih h
        exact ⟨seg, List.mem_cons_of_mem _ hseg, hpass⟩
      · exact ⟨_, List.mem_cons_self, Nat.pos_of_ne_zero hzero, by omega⟩
      · obtain ⟨seg, hseg, hpass⟩ := ih (Bool.and_eq_true_iff.mp h).2
        exact ⟨seg, List.mem_cons_of_mem _ hseg, hpass⟩

/-- A send under way, of a plan that an end of it would contradict. -/
structure Going (file : Octets) (segs : List StaticSeg) (s : Shard 1) : Prop extends
    Lone file segs s where
  unfinished : s.finished = []
  unclosed : s.closed = []

private theorem dispatched_going (hsent : ¬ (astray file segs = false ∧ oversized segs = false)) :
    Going file segs (dispatched file segs) := by
  cases (@dispatched_lone file segs).place with
  | sending _ _ hunfinished hunclosed _ => exact ⟨dispatched_lone, hunfinished, hunclosed⟩
  | finished _ _ _ _ hcalm => exact absurd hcalm hsent
  | closed _ _ _ hdone _ =>
    have hunclosed : (dispatched file segs).closed = [] :=
      (@submit_idle { start 1 with next := 1 } (driveStatic (.new 0 file segs segs))).2.2
    rw [hunclosed] at hdone
    cases hdone

private theorem not_oversized (hfile : file.length < 2 ^ 63) (hagrees : RingAgrees file segs)
    (hnone : none ∉ planned file segs) : oversized segs = false := by
  have hcalm : astray file segs = false := by
    rw [← Bool.not_eq_true]
    exact fun h => hnone (none_mem_of_astray hfile h)
  by_contra hbig
  have hsent : ¬ (astray file segs = false ∧ oversized segs = false) := fun h => hbig h.2
  refine no_endless hagrees (dispatched_going hsent) (fun h => ⟨h.unfinished, h.unclosed⟩) ?_
  intro s a t acts h hlone hstep hwrites
  have hnext := h.keeps hfile hlone (h.alone_of_calm hcalm hstep) hstep
  cases hnext.place with
  | sending _ _ hunfinished hunclosed _ => exact ⟨hnext, hunfinished, hunclosed⟩
  | finished _ _ _ _ hboth => exact absurd hboth hsent
  | @closed ss _ _ _ hdone _ =>
    refine absurd (hwrites.closed ss ?_).2 hnone
    rw [hdone]
    exact List.mem_singleton_self ss

/-- The send has read from its file's position, and is about to write what it read. -/
inductive Strayed (file : Octets) (segs : List StaticSeg) (s : Shard 1) : Prop
  | intro {ss : StaticSend} {f : Flight} {off n : ℕ} {rest : List StaticSeg}
      {more : List (Option UInt8)} (slot : s.slots 0 = some (ss, f)) (idle : s.draining = none)
      (unfinished : s.finished = []) (unclosed : s.closed = [])
      (split : planned file segs = ss.wire.map some ++ none :: more) (piped : s.pipe ≠ [])
      (started : ss.segStarted = true) (todo : ss.todo = .window off n :: rest)
      (flight : (∃ m, f = .submitted (.spliceOut m)) ∨ ∃ off chunk, ∃ k : ℕ,
        f = .done (.spliceIn off chunk) k ∧ 0 < k ∧ 0 < (ss.pipeBytes + k) % 2 ^ 32)

private theorem plannedSeg_past {off n : ℕ} (hoff : file.length ≤ off) (hpos : 0 < n) :
    ∃ more, plannedSeg file (.window off n) = none :: more := by
  obtain ⟨m, rfl⟩ := Nat.exists_eq_succ_of_ne_zero hpos.ne'
  rw [plannedSeg, List.range_succ_eq_map, List.map_cons, Nat.add_zero,
    List.getElem?_eq_none hoff]
  exact ⟨_, rfl⟩

private theorem Going.strayed (h : Going file segs s) (hfile : file.length < 2 ^ 63)
    (hstrays : Strays s 0)
    {k : ℕ} (hstep : perform s 0 k = some t) : Strayed file segs t := by
  obtain ⟨ss, chunk, hslot⟩ := hstrays
  obtain ⟨hpos, hchunk, hle, rfl⟩ := perform_stray hslot hstep
  obtain ⟨⟨hcursor, hin, hzero, hmore, hoff, rfl⟩, -⟩ := h.inv.sends 0 ss _ hslot
  obtain ⟨o, n, rest, hs, htodo, hremains⟩ := remains_window hin
  have hof : Of file segs ss := by
    cases h.place with
    | sending hslot' hof _ _ _ =>
      rw [hslot] at hslot'
      cases hslot'
      exact hof
    | finished hnone _ _ _ _ | closed hnone _ _ _ _ =>
      rw [hnone] at hslot
      cases hslot
  have hchunk' : k ≤ 2 ^ 20 := hchunk.trans (Nat.min_le_right _ _)
  obtain ⟨more, hmore'⟩ := @plannedSeg_past file ss.winOff ss.winRemaining (by omega) hmore
  have hsplit := hcursor.split
  rw [hof.file, hof.plan, hremains, planned_cons, hcursor.pipe_nil hzero, List.append_nil,
    hmore'] at hsplit
  refine .intro (setSlot_self s _) h.idle h.unfinished h.unclosed hsplit ?_ hs htodo
    (.inr ⟨_, _, k, rfl, hpos, ?_⟩)
  · intro hnil
    have hlen := congrArg List.length hnil
    rw [List.length_append, List.length_map, List.length_take, List.length_nil] at hlen
    omega
  · dsimp only
    rw [hzero, Nat.zero_add, Nat.mod_eq_of_lt (by omega)]
    exact hpos

theorem Strayed.keeps {acts : List (Action 1)} (h : Strayed file segs s) (hlone : lone s a = true)
    (hstep : step ring s a = some t) (hwrites : RingWrites file segs acts t) :
    Strayed file segs t := by
  obtain @⟨ss, f, off, n, rest, more, hslot, hidle, hunfinished, hunclosed, hsplit, hpiped, hs, htodo,
    hflight⟩ := h
  rcases @lone_step_cases file segs s t ss f a hslot hidle hlone hstep with
    ⟨op, k, pipe, ss', rfl, rfl, -, -⟩ | ⟨op, res, rfl, href, -, rfl⟩ | ⟨op, res, rfl, rfl⟩
  · rcases hflight with ⟨m, hop⟩ | ⟨_, _, _, hop, -⟩
    · -- the octet read is written where the plan has none
      cases hop
      simp only [step, perform, hslot] at hstep
      split_ifs at hstep with hbad hle
      cases hstep
      have hwritten := hwrites.written _ _ (setSlot_self s _)
      obtain ⟨x, xs, hpipe⟩ := List.exists_cons_of_ne_nil hpiped
      obtain ⟨j, rfl⟩ := Nat.exists_eq_succ_of_ne_zero fun hzero => hbad (.inl hzero)
      rw [hsplit, List.map_append, List.prefix_append_right_inj, hpipe, List.take_succ_cons,
        List.map_cons, List.map_cons, List.cons_prefix_cons] at hwritten
      cases hwritten.1
    · cases hop
  · rcases hflight with ⟨m, hop⟩ | ⟨_, _, _, hop, -⟩
    · cases hop
      cases href
    · cases hop
  · rcases hflight with ⟨m, hop⟩ | ⟨o, c, k, hop, hk, hbytes⟩
    · cases hop
    · cases hop
      rw [if_neg (by omega), Int.toNat_natCast]
      have hdrive : driveStatic (advance ss (.spliceIn o c) k) =
          (advance ss (.spliceIn o c) k, some (.spliceOut ((ss.pipeBytes + k) % 2 ^ 32))) := by
        simp only [driveStatic, advance, htodo, driveFrom, startSeg, hs, if_true, hbytes]
      rw [hdrive, submit]
      exact .intro (setSlot_self s _) hidle hunfinished hunclosed hsplit hpiped hs htodo
        (.inl ⟨_, rfl⟩)

private theorem not_astray (hfile : file.length < 2 ^ 63) (hagrees : RingAgrees file segs) :
    astray file segs = false := by
  rw [← Bool.not_eq_true]
  intro hastray
  have hsent : ¬ astray file segs = false := by
    rw [hastray]
    exact Bool.true_eq_false.mp
  refine no_endless (J := fun s => Going file segs s ∨ Strayed file segs s) hagrees
    (.inl (dispatched_going fun h => hsent h.1)) ?_ ?_
  · rintro s (h | ⟨-, -, hunfinished, hunclosed, -⟩)
    · exact ⟨h.unfinished, h.unclosed⟩
    · exact ⟨hunfinished, hunclosed⟩
  · rintro s a t acts (h | h) hlone hstep hwrites
    · by_cases hstrays : Strays s 0 ∧ ∃ k, a = .perform 0 k
      · obtain ⟨hstrays, k, rfl⟩ := hstrays
        exact .inr (h.strayed hfile hstrays hstep)
      · have halone : alone s a = true :=
          alone_of_lone h.toLone fun k hk hs => hstrays ⟨hs, k, hk⟩
        have hnext := h.keeps hfile hlone halone hstep
        cases hnext.place with
        | sending _ _ hunfinished hunclosed _ => exact .inl ⟨hnext, hunfinished, hunclosed⟩
        | finished _ _ _ _ hboth => exact absurd hboth.1 hsent
        | closed _ _ _ _ hstops => exact absurd hstops.1 hsent
    · exact .inr (h.keeps hlone hstep hwrites)

/-- A send alone agrees with its plan exactly where it does not come to a window at `2 ^ 64 - 1`, and
no literal is too long for it unless some window passes the end. -/
theorem ring_agrees_iff (hfile : file.length < 2 ^ 63) :
    RingAgrees file segs ↔
      (none ∉ planned file segs → oversized segs = false) ∧ astray file segs = false := by
  constructor
  · intro h
    exact ⟨not_oversized hfile h, not_astray hfile h⟩
  · rintro ⟨hfits, hcalm⟩
    exact ring_agrees_of_fits hfile hfits hcalm

end DragonsNet.Dataplane.StaticAlone
