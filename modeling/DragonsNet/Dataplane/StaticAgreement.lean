/- GID: DragonsNet/Dataplane/StaticAgreement
   source: migration/dataplane/host/src/static_serve.rs, uring.rs
   digest: The linearised plan, the synchronous response and the ring's sends are one response. -/

import DragonsNet.Dataplane.StaticAlone

set_option autoImplicit false

namespace DragonsNet.Dataplane.StaticAgreement

open Lib.LittleEndian (toBe)
open Lib.Runs (run Meets)
open Dataplane.StaticPlans
open Dataplane.StaticDrive
open Dataplane.StaticLane
open Dataplane.StaticAlone

/-- The file a plan's windows are read from; a plan without one has no windows. -/
def fileOf (p : StaticPlan) : Octets := p.file.getD []

/-- What `handle_streaming_zc` makes of a plan: the whole concatenation, or, where a window passes
the end, an error after a part of it. -/
structure SameResponse (p : StaticPlan) (r : Octets × Except String StaticOutcome) : Prop where
  whole : none ∉ planned (fileOf p) p.segs → ∃ out, out.map some = planned (fileOf p) p.segs ∧
    r = (out, .ok ⟨p.head, out.length, p.keepalive⟩)
  cut : none ∈ planned (fileOf p) p.segs → (∃ e, r.2 = .error e) ∧
    r.1.map some <+: planned (fileOf p) p.segs

/-! ## The answer -/

/-- The literals and windows of the core's answer, in order, where it has its file. -/
def answerSegs : PlanOut → Option Octets → List StaticSeg
  | .reply resp, _ => [.buf resp]
  | .whole _, none => []
  | .whole head, some f => [.buf head, .window 0 f.length]
  | .window _ _ _, none => []
  | .window off n head, some _ => [.buf head, .window off n]
  | .parts _ _ _, none => []
  | .parts head tail parts, some _ =>
    .buf head :: parts.flatMap (fun (pre, off, n) => [.buf pre, .window off n]) ++ [.buf tail]

/-- The file the windows of an answer are of. -/
def answerFile : PlanOut → Option Octets → Octets
  | .reply _, _ => []
  | _, file => file.getD []

/-- A window of no octets starts where the file can be positioned. -/
def Seekable (maxBytes : ℕ) : StaticSeg → Prop
  | .buf _ => True
  | .window off n => n = 0 → off ≤ maxBytes

/-- The answer does not lead the ring to a window at `2 ^ 64 - 1`, and where no window passes the
end its literals are shorter than `2 ^ 32` octets and its empty windows start where the file can be
positioned. -/
structure Fair (maxBytes : ℕ) (file : Octets) (segs : List StaticSeg) : Prop where
  fits : none ∉ planned file segs → oversized segs = false
  seekable : none ∉ planned file segs → ∀ seg ∈ segs, Seekable maxBytes seg
  calm : astray file segs = false

private theorem linearise_answer {ka : Bool} {plan : PlanOut} {file : Option Octets} :
    (∀ p, linearise ka plan file = .ok p →
      p.segs = answerSegs plan file ∧ fileOf p = answerFile plan file) ∧
    ∀ e, linearise ka plan file = .error e → answerSegs plan file = [] := by
  constructor
  · intro p hp
    cases plan with
    | reply resp =>
      cases hp
      exact ⟨rfl, rfl⟩
    | _ =>
      cases file with
      | none => cases hp
      | some f =>
        cases hp
        exact ⟨rfl, rfl⟩
  · intro e he
    cases plan <;> cases file <;> cases he <;> rfl

/-! ## The pump -/

private theorem pumpLoop_eq (file : Octets) (cut : ℕ → ℕ) (fuel pos remaining : ℕ)
    (hfuel : remaining ≤ fuel) : pumpLoop file cut fuel pos remaining =
      ((file.drop pos).take remaining,
        decide (remaining = 0 ∨ pos + remaining ≤ file.length)) := by
  induction fuel generalizing pos remaining with
  | zero =>
    obtain rfl : remaining = 0 := by omega
    simp [pumpLoop]
  | succ fuel ih =>
    rw [pumpLoop]
    split_ifs with hzero hend
    · simp [hzero]
    · rw [List.drop_eq_nil_of_le hend, List.take_nil, decide_eq_false (by omega)]
    · dsimp only
      generalize hgot : max 1 (min (cut pos) (min (min remaining STREAM_CHUNK)
        (file.length - pos))) = got
      have hpos : 1 ≤ got := by omega
      have hle : got ≤ remaining := by omega
      rw [ih (pos + got) (remaining - got) (by omega)]
      have hout : (file.drop pos).take got ++ (file.drop (pos + got)).take (remaining - got) =
          (file.drop pos).take remaining := by
        rw [← List.drop_drop, ← List.take_add, Nat.add_sub_cancel' hle]
      have hok : (remaining - got = 0 ∨ pos + got + (remaining - got) ≤ file.length) ↔
          (remaining = 0 ∨ pos + remaining ≤ file.length) := by omega
      simp only [hout, hok]

private theorem pumpWindow_eq (w : World) (cut : ℕ → ℕ) (file : Octets) (off n : ℕ) :
    pumpWindow w cut file off n =
      if w.maxBytes < off then ([], .error "Invalid argument (os error 22)")
      else ((file.drop off).take n, if n = 0 ∨ off + n ≤ file.length then .ok n
        else .error "static file shorter than the planned window") := by
  rw [pumpWindow, pumpLoop_eq file cut n off n le_rfl]
  split_ifs with hseek hok
  · rfl
  · rw [decide_eq_true hok]
  · rw [decide_eq_false hok]

private theorem pumpWindow_ok {w : World} {cut : ℕ → ℕ} {file : Octets} {off n : ℕ}
    (hfile : file.length ≤ w.maxBytes) (hseek : Seekable w.maxBytes (.window off n))
    (hfits : ¬ Passes file (.window off n)) :
    pumpWindow w cut file off n = ((file.drop off).take n, .ok n) := by
  simp only [Passes, Seekable] at hfits hseek
  rw [pumpWindow_eq, if_neg (by omega), if_pos (by omega)]

private theorem pumpWindow_error {w : World} (cut : ℕ → ℕ) {file : Octets} {off n : ℕ}
    (hpass : Passes file (.window off n) ∨ ¬ Seekable w.maxBytes (.window off n)) :
    ∃ out e, pumpWindow w cut file off n = (out, .error e) ∧
      out.map some <+: plannedSeg file (.window off n) := by
  rw [pumpWindow_eq]
  split_ifs with hseek hok
  · exact ⟨_, _, rfl, List.nil_prefix⟩
  · simp only [Passes, Seekable] at hpass
    omega
  · refine ⟨_, _, rfl, ?_⟩
    by_cases hend : file.length ≤ off
    · rw [List.drop_eq_nil_of_le hend, List.take_nil]
      exact List.nil_prefix
    · -- the window begins within the file, and what follows there is of it
      have hall : (file.drop off).take n = (file.drop off).take (file.length - off) := by
        have hlength : (file.drop off).length = file.length - off := List.length_drop
        rw [List.take_of_length_le (by omega), List.take_of_length_le hlength.le]
      rw [plannedSeg_window (k := file.length - off) (by omega) (by omega), hall]
      exact List.prefix_append _ _

/-! ## The segments, written one after the other -/

/-- The blocking writer over a list of segments: what it writes, and its error. -/
def writeSegs (w : World) (cut : ℕ → ℕ) (file : Octets) : List StaticSeg → Octets × Option String
  | [] => ([], none)
  | .buf b :: rest => (b ++ (writeSegs w cut file rest).1, (writeSegs w cut file rest).2)
  | .window off n :: rest =>
    match pumpWindow w cut file off n with
    | (out, .error e) => (out, some e)
    | (out, .ok _) => (out ++ (writeSegs w cut file rest).1, (writeSegs w cut file rest).2)

variable {w : World} {file : Octets}

private theorem writeSegs_whole (hfile : file.length ≤ w.maxBytes) (cut : ℕ → ℕ)
    {segs : List StaticSeg}
    (hfits : ∀ seg ∈ segs, ¬ Passes file seg) (hseek : ∀ seg ∈ segs, Seekable w.maxBytes seg) :
    (writeSegs w cut file segs).1.map some = planned file segs ∧
      (writeSegs w cut file segs).2 = none := by
  induction segs with
  | nil => exact ⟨rfl, rfl⟩
  | cons seg segs ih =>
    obtain ⟨hfit, hfits⟩ := List.forall_mem_cons.mp hfits
    obtain ⟨hseek, hseeks⟩ := List.forall_mem_cons.mp hseek
    obtain ⟨hout, hok⟩ := ih hfits hseeks
    cases seg with
    | buf b =>
      rw [writeSegs, planned_cons, List.map_append, hout]
      exact ⟨rfl, hok⟩
    | window off n =>
      rw [writeSegs, pumpWindow_ok hfile hseek hfit, planned_cons]
      dsimp only
      rw [List.map_append, hout]
      refine ⟨congrArg (· ++ planned file segs) ?_, hok⟩
      rcases Nat.eq_zero_or_pos n with rfl | hpos
      · rfl
      · have hle : off + n ≤ file.length := by
          simp only [Passes] at hfit
          omega
        rw [plannedSeg_window le_rfl hle, Nat.sub_self]
        exact (List.append_nil _).symm

/-- Where a window passes the end, or cannot be positioned at, the writer stops with an error, at it
or before it. -/
theorem writeSegs_cut (hfile : file.length ≤ w.maxBytes) (cut : ℕ → ℕ) {segs : List StaticSeg}
    (hstop : ∃ seg ∈ segs, Passes file seg ∨ ¬ Seekable w.maxBytes seg) :
    (∃ e, (writeSegs w cut file segs).2 = some e) ∧
      (writeSegs w cut file segs).1.map some <+: planned file segs := by
  induction segs with
  | nil =>
    obtain ⟨seg, hseg, -⟩ := hstop
    cases hseg
  | cons seg segs ih =>
    have hrest : ¬ (Passes file seg ∨ ¬ Seekable w.maxBytes seg) →
        ∃ s ∈ segs, Passes file s ∨ ¬ Seekable w.maxBytes s := by
      intro hhere
      obtain ⟨s, hs, hp⟩ := hstop
      rcases List.mem_cons.mp hs with rfl | hs
      · exact absurd hp hhere
      · exact ⟨s, hs, hp⟩
    rw [planned_cons]
    cases seg with
    | buf b =>
      obtain ⟨herror, hpart⟩ := ih (hrest (not_or.mpr ⟨id, not_not.mpr trivial⟩))
      rw [writeSegs, List.map_append]
      exact ⟨herror, (List.prefix_append_right_inj _).mpr hpart⟩
    | window off n =>
      rw [writeSegs]
      by_cases hhere : Passes file (.window off n) ∨ ¬ Seekable w.maxBytes (.window off n)
      · obtain ⟨out, e, hpump, hpart⟩ := pumpWindow_error cut hhere
        rw [hpump]
        exact ⟨⟨e, rfl⟩, hpart.trans (List.prefix_append _ _)⟩
      · obtain ⟨herror, hpart⟩ := ih (hrest hhere)
        obtain ⟨hfit, hseek⟩ := not_or.mp hhere
        have hone := @writeSegs_whole w file hfile cut [.window off n]
          (List.forall_mem_singleton.mpr hfit) (List.forall_mem_singleton.mpr (not_not.mp hseek))
        rw [writeSegs, pumpWindow_ok hfile (not_not.mp hseek) hfit] at hone
        rw [pumpWindow_ok hfile (not_not.mp hseek) hfit]
        have hwindow : ((file.drop off).take n).map some = plannedSeg file (.window off n) := by
          simpa [writeSegs, planned] using hone.1
        dsimp only
        rw [List.map_append, hwindow]
        exact ⟨herror, (List.prefix_append_right_inj _).mpr hpart⟩

def outcome (p : StaticPlan) : Octets × Option String → Octets × Except String StaticOutcome
  | (out, some e) => (out, .error e)
  | (out, none) => (out, .ok ⟨p.head, out.length, p.keepalive⟩)

/-- The writer makes the response of a plan exactly where the empty windows of one that no window
passes the end of can be positioned at. -/
theorem outcome_same_iff {p : StaticPlan} (hfile : (fileOf p).length ≤ w.maxBytes) :
    (∀ cut, SameResponse p (outcome p (writeSegs w cut (fileOf p) p.segs))) ↔
      (none ∉ planned (fileOf p) p.segs → ∀ seg ∈ p.segs, Seekable w.maxBytes seg) := by
  constructor
  · intro h hnone seg hseg
    by_contra hseek
    obtain ⟨⟨e, he⟩, -⟩ := writeSegs_cut hfile (fun _ => 0) ⟨seg, hseg, .inr hseek⟩
    obtain ⟨out, -, hout⟩ := (h fun _ => 0).whole hnone
    generalize writeSegs w (fun _ => 0) (fileOf p) p.segs = r at he hout
    obtain ⟨out', error⟩ := r
    obtain rfl : error = some e := he
    cases hout
  · intro hseek cut
    constructor
    · intro hnone
      have hfits : ∀ seg ∈ p.segs, ¬ Passes (fileOf p) seg := fun seg hseg hpass =>
        hnone (none_mem_planned.mpr ⟨seg, hseg, hpass⟩)
      obtain ⟨hout, hok⟩ := writeSegs_whole hfile cut hfits (hseek hnone)
      refine ⟨_, hout, ?_⟩
      generalize writeSegs w cut (fileOf p) p.segs = r at hok
      obtain ⟨out, error⟩ := r
      obtain rfl : error = none := hok
      rfl
    · intro hnone
      obtain ⟨seg, hseg, hpass⟩ := none_mem_planned.mp hnone
      obtain ⟨⟨e, he⟩, hpart⟩ := writeSegs_cut hfile cut ⟨seg, hseg, .inl hpass⟩
      generalize writeSegs w cut (fileOf p) p.segs = r at he hpart
      obtain ⟨out, error⟩ := r
      obtain rfl : error = some e := he
      exact ⟨⟨e, rfl⟩, hpart⟩

/-! ## The executors -/

private theorem pumpWindow_sent {w : World} {cut : ℕ → ℕ} {file out : Octets} {off n sent : ℕ}
    (h : pumpWindow w cut file off n = (out, .ok sent)) : out.length = sent := by
  rw [pumpWindow_eq] at h
  split_ifs at h with hseek hok
  · cases h
  · cases h
    rw [List.length_take, List.length_drop]
    omega
  · cases h

private theorem sendHeadWindow_eq {w : World} {cut : ℕ → ℕ} {ka : Bool} {head file : Octets}
    {off n : ℕ} :
    sendHeadWindow w cut ka head file off n =
      outcome ⟨[.buf head, .window off n], some file, ka, head⟩
        (writeSegs w cut file [.buf head, .window off n]) := by
  simp only [sendHeadWindow, writeSegs]
  cases hpump : pumpWindow w cut file off n with
  | mk out r =>
    cases r with
    | error e => rfl
    | ok sent => simp only [outcome, List.append_nil, List.length_append, pumpWindow_sent hpump]

private theorem sendParts_eq (w : World) (cut : ℕ → ℕ) (file tail : Octets)
    (parts : List (Octets × ℕ × ℕ)) :
    (∀ bytes, (sendParts w cut file parts).2 = .ok bytes →
      bytes = (sendParts w cut file parts).1.length ∧
      writeSegs w cut file (parts.flatMap (fun (pre, off, n) => [.buf pre, .window off n]) ++
        [.buf tail]) = ((sendParts w cut file parts).1 ++ tail, none)) ∧
    ∀ e, (sendParts w cut file parts).2 = .error e →
      writeSegs w cut file (parts.flatMap (fun (pre, off, n) => [.buf pre, .window off n]) ++
        [.buf tail]) = ((sendParts w cut file parts).1, some e) := by
  induction parts with
  | nil =>
    refine ⟨fun bytes hbytes => ?_, fun e he => ?_⟩
    · cases hbytes
      exact ⟨rfl, by simp [writeSegs, sendParts]⟩
    · cases he
  | cons part rest ih =>
    obtain ⟨pre, off, n⟩ := part
    simp only [List.flatMap_cons, List.cons_append, List.nil_append, writeSegs, sendParts]
    cases hpump : pumpWindow w cut file off n with
    | mk out r =>
      cases r with
      | error e =>
        refine ⟨fun bytes hbytes => ?_, fun e' he => ?_⟩
        · cases hbytes
        · cases he
          rfl
      | ok sent =>
        obtain ⟨hok, herror⟩ := ih
        have hsent := pumpWindow_sent hpump
        cases hmore : sendParts w cut file rest with
        | mk more r =>
          rw [hmore] at hok herror
          cases r with
          | error e =>
            refine ⟨fun bytes hbytes => ?_, fun e' he => ?_⟩
            · cases hbytes
            · cases he
              dsimp only
              rw [herror e rfl, List.append_assoc]
          | ok bytes =>
            obtain ⟨hbytes, hwrite⟩ := hok bytes rfl
            refine ⟨fun total htotal => ?_, fun e' he => ?_⟩
            · cases htotal
              dsimp only
              rw [hwrite]
              refine ⟨?_, by simp only [List.append_assoc]⟩
              rw [List.length_append, List.length_append, hsent, hbytes]
            · cases he

private theorem execute_eq {w : World} {cut : ℕ → ℕ} {ka : Bool} {plan : PlanOut}
    {file : Option Octets} :
    (∀ e, linearise ka plan file = .error e → execute w cut ka plan file = ([], .error e)) ∧
    ∀ p, linearise ka plan file = .ok p →
      execute w cut ka plan file = outcome p (writeSegs w cut (fileOf p) p.segs) := by
  refine ⟨fun e he => ?_, fun p hp => ?_⟩
  · cases plan <;> cases file <;> cases he <;> rfl
  · cases plan with
    | reply resp =>
      cases hp
      simp only [execute, writeSegs, outcome, List.append_nil]
    | whole head | window off n head =>
      cases file with
      | none => cases hp
      | some f =>
        cases hp
        exact sendHeadWindow_eq
    | parts head tail parts =>
      cases file with
      | none => cases hp
      | some f =>
        cases hp
        obtain ⟨hok, herror⟩ := sendParts_eq w cut f tail parts
        simp only [execute, fileOf, Option.getD_some, List.cons_append, writeSegs]
        cases hparts : sendParts w cut f parts with
        | mk out r =>
          rw [hparts] at hok herror
          cases r with
          | error e =>
            rw [herror e rfl]
            rfl
          | ok bytes =>
            obtain ⟨hbytes, hwrite⟩ := hok bytes rfl
            rw [hwrite]
            simp only [outcome, List.append_assoc, List.length_append, hbytes, Nat.add_assoc]

private theorem entity_file {sr : StaticRoot} {w : World} {method target : Octets}
    {resolve : Octets → Option Octets} {f : Octets × Octets × ℕ}
    (h : (sr.entity w method target resolve).1 = some f) : f.1.length ≤ w.maxBytes := by
  unfold StaticRoot.entity at h
  split_ifs at h
  · split at h
    · split at h
      · rename_i octets modified hopen
        obtain rfl := Option.some.inj h
        exact w.length_le hopen
      · cases h
    · cases h
    · cases h

private theorem crossing_file {sr : StaticRoot} {w : World} {req : Octets} {ka : Bool}
    {resolve decide : Octets → Option Octets} {plan : PlanOut} {f : Octets}
    (h : sr.crossing w req ka resolve decide = .ok (plan, some f)) : f.length ≤ w.maxBytes := by
  unfold StaticRoot.crossing at h
  split at h
  · cases h
  · rename_i method target _
    dsimp only at h
    split at h
    · cases h
    · split at h
      · cases h
      · cases hfile : (sr.entity w method target resolve).1 with
        | none =>
          rw [hfile] at h
          cases h
        | some g =>
          have hle := entity_file hfile
          rw [hfile] at h
          cases h
          exact hle

private theorem linearise_file {ka : Bool} {plan : PlanOut} {file : Option Octets} {p : StaticPlan}
    (h : linearise ka plan file = .ok p) : fileOf p = [] ∨ file = some (fileOf p) := by
  cases plan with
  | reply resp =>
    cases h
    exact .inl rfl
  | _ =>
    cases file with
    | none => cases h
    | some f =>
      cases h
      exact .inr rfl

private theorem plan_file {sr : StaticRoot} {w : World} {req : Octets} {ka : Bool}
    {resolve decide : Octets → Option Octets} {p : StaticPlan}
    (h : sr.plan w req ka resolve decide = .ok p) : (fileOf p).length ≤ w.maxBytes := by
  unfold StaticRoot.plan at h
  split at h
  · cases h
  · rename_i plan file hcross
    rcases linearise_file h with hnil | hsome
    · rw [hnil]
      exact Nat.zero_le _
    · rw [hsome] at hcross
      exact crossing_file hcross

private theorem handle_of_error {sr : StaticRoot} {w : World} {req : Octets} {ka : Bool}
    {resolve decide : Octets → Option Octets} {e : String}
    (h : sr.plan w req ka resolve decide = .error e) (cut : ℕ → ℕ) :
    sr.handleStreamingZc w cut req ka resolve decide = ([], .error e) := by
  unfold StaticRoot.plan at h
  unfold StaticRoot.handleStreamingZc
  cases hcross : sr.crossing w req ka resolve decide with
  | error e' =>
    rw [hcross] at h
    cases h
    rfl
  | ok out =>
    rw [hcross] at h
    exact execute_eq.1 e h

private theorem handle_of_plan {sr : StaticRoot} {w : World} {req : Octets} {ka : Bool}
    {resolve decide : Octets → Option Octets} {p : StaticPlan}
    (h : sr.plan w req ka resolve decide = .ok p) (cut : ℕ → ℕ) :
    sr.handleStreamingZc w cut req ka resolve decide =
      outcome p (writeSegs w cut (fileOf p) p.segs) := by
  unfold StaticRoot.plan at h
  unfold StaticRoot.handleStreamingZc
  cases hcross : sr.crossing w req ka resolve decide with
  | error e =>
    rw [hcross] at h
    cases h
  | ok out =>
    rw [hcross] at h
    exact execute_eq.2 p h

/-- The plan, the synchronous response and the ring agree: the first two fail alike with nothing
written, or the response is the concatenation of the plan's segments, with the plan's head and
keep-alive, and the ring writes the same; and where a window passes the file's end both fail with
less written. That is so exactly where the core's answer is fair. -/
theorem plan_is_response_iff (sr : StaticRoot) (w : World) (req : Octets) (ka : Bool)
    (resolve decide : Octets → Option Octets) :
    ((∃ e, sr.plan w req ka resolve decide = .error e ∧
        ∀ cut, sr.handleStreamingZc w cut req ka resolve decide = ([], .error e)) ∨
      ∃ p, sr.plan w req ka resolve decide = .ok p ∧
        (∀ cut, SameResponse p (sr.handleStreamingZc w cut req ka resolve decide)) ∧
        RingAgrees (fileOf p) p.segs) ↔
      ∀ plan file, sr.crossing w req ka resolve decide = .ok (plan, file) →
        Fair w.maxBytes (answerFile plan file) (answerSegs plan file) := by
  cases hplan : sr.plan w req ka resolve decide with
  | error e =>
    refine iff_of_true (.inl ⟨e, rfl, handle_of_error hplan⟩) fun plan file hcross => ?_
    rw [StaticRoot.plan, hcross] at hplan
    rw [linearise_answer.2 e hplan]
    refine ⟨fun _ => rfl, fun _ seg hseg => ?_, rfl⟩
    cases hseg
  | ok p =>
    have hfile := plan_file hplan
    have hlt : (fileOf p).length < 2 ^ 63 := hfile.trans_lt w.maxBytes_lt
    have hfair : (∀ plan file, sr.crossing w req ka resolve decide = .ok (plan, file) →
        Fair w.maxBytes (answerFile plan file) (answerSegs plan file)) ↔
        Fair w.maxBytes (fileOf p) p.segs := by
      cases hcross : sr.crossing w req ka resolve decide with
      | error e =>
        rw [StaticRoot.plan, hcross] at hplan
        cases hplan
      | ok out =>
        rw [StaticRoot.plan, hcross] at hplan
        obtain ⟨hsegs, hfileOf⟩ := linearise_answer.1 p hplan
        rw [hsegs, hfileOf]
        constructor
        · intro h
          exact h out.1 out.2 rfl
        · intro h plan file heq
          cases heq
          exact h
    rw [hfair]
    constructor
    · rintro (⟨e, he, -⟩ | ⟨p', hp', hsame, hring⟩)
      · cases he
      · cases hp'
        simp only [handle_of_plan hplan] at hsame
        obtain ⟨hfits, hcalm⟩ := (ring_agrees_iff hlt).mp hring
        exact ⟨hfits, (outcome_same_iff hfile).mp hsame, hcalm⟩
    · intro h
      refine .inr ⟨p, rfl, ?_, (ring_agrees_iff hlt).mpr ⟨h.fits, h.calm⟩⟩
      simp only [handle_of_plan hplan]
      exact (outcome_same_iff hfile).mpr h.seekable

def oneFile : World where
  utf8 _ := true
  canonicalize path := some path
  isFile _ := true
  isDir _ := false
  openFile _ := some ⟨[5, 6, 7], some (some 0)⟩
  maxBytes := 2 ^ 40
  maxBytes_lt := by decide
  length_le h := by
    obtain rfl := Option.some.inj h
    decide

def smallRoot : StaticRoot := ⟨[47, 114], [47, 115, 47], none⟩

def smallRequest : Octets :=
  [71, 69, 84, 32, 47, 115, 47, 97, 32, 72, 84, 84, 80, 47, 49, 46, 49, 13, 10]

def windowAt (off n : ℕ) (_ : Octets) : Option Octets := some (3 :: toBe 8 off ++ toBe 8 n ++ [72])

/-- A window at `2 ^ 64 - 1`, whose offset the ring gives to the kernel as -1: the ring sends the
file's first octet and finishes, where the synchronous response fails after the head. -/
theorem offset_wraps : ∃ p,
    smallRoot.plan oneFile smallRequest true some (windowAt (2 ^ 64 - 1) 1) = .ok p ∧
    smallRoot.handleStreamingZc oneFile (fun _ => 1) smallRequest true some
      (windowAt (2 ^ 64 - 1) 1) = ([72], .error "Invalid argument (os error 22)") ∧
    (∃ s, run (step ring) (dispatched (fileOf p) p.segs) [.perform 0 1, .complete 0, .perform 0 1,
      .complete 0, .perform 0 1, .complete 0] = some s ∧
      s.finished.map StaticSend.wire = [[72, 5]]) ∧
    planned (fileOf p) p.segs = [some 72, none] := by
  refine ⟨⟨[.buf [72], .window (2 ^ 64 - 1) 1], some [5, 6, 7], true, [72]⟩, ?_, ?_, ⟨_, rfl, ?_⟩, ?_⟩
  · decide +kernel
  · decide +kernel
  · decide +kernel
  · decide +kernel

end DragonsNet.Dataplane.StaticAgreement
