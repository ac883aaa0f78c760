/- GID: DragonsNet/Dataplane/OnDemand
   source: migration/dataplane/host/src/tls/ondemand.rs, migration/dataplane/host/src/renewal.rs
   digest: The renewal sweep beside the calls for on-demand leaves, and when the authorizer was
     asked. -/

import DragonsNet.Dataplane.LeafLocks

set_option autoImplicit false

namespace DragonsNet.Dataplane.OnDemand

open Lib.Runs (run invariant_of_step)
open Dataplane.LeafFiles (Bytes Sni validHost Dir Entry Phase Purpose Does Takes Locked
  Effect takes_of_step)

def plausibleSni (h : Sni) : Bool := validHost h

/-- The configuration of the sweep beside that of `resolve`: its smallest time between attempts,
its reading of a leaf's validity and its rule for when a leaf is due. -/
structure Cfg extends LeafFiles.Cfg where
  minReattempt : ℤ
  parseValidity : Bytes → Option (ℤ × ℤ)
  due : ℤ → ℤ → ℤ → Bool

inductive Thread (n : ℕ) where
  | handshake (i : Fin n)
  | sweep
  deriving DecidableEq

/-- A `Serve` as it was returned: the authorizer's latest answer for the SNI then, and
whether a sweep had put a leaf in its cache entry where there was none. -/
structure Served where
  sni : Sni
  latest : Option Bool
  installed : Bool

/-- A run of the issuer: by `resolve` or by the sweep, and the latest answer then. -/
structure Issued where
  sni : Sni
  bySweep : Bool
  latest : Option Bool

/-- The calls for leaves, and of the sweep the issuer run it waits for and the attempts it made.
The last four fields are a record of the run. -/
structure State (n : ℕ) where
  leaves : LeafFiles.State (Thread n)
  reminting : Option (Sni × ℕ)
  lastAttempt : Sni → Option ℤ
  latest : Sni → Option Bool
  installed : Sni → Bool
  served : List Served
  issued : List Issued

/-- A process that starts with whatever leaves an earlier one left on disk. -/
def start (n : ℕ) (disk : Sni → Dir) : State n where
  leaves := { LeafFiles.start (Thread n) (fun _ => none) with disk }
  reminting := none
  lastAttempt := fun _ => none
  latest := fun _ => none
  installed := fun _ => false
  served := []
  issued := []

variable {n : ℕ}

def State.ready (s : State n) (sni : Sni) : Bool := Entry.isReady (s.leaves.cache sni)

def State.installs (s : State n) : Phase → Sni → Bool
  | .inserting sni .sweep _ _ => Function.update s.installed sni (s.installed sni || !s.ready sni)
  | _ => s.installed

def State.serves (s : State n) : Phase → List Served
  | .returned sni (.serve _) => [⟨sni, s.latest sni, s.installed sni⟩]
  | _ => []

def State.issues (s : State n) : Phase → Phase → List Issued
  | .preparing sni, .minting _ _ => [⟨sni, false, s.latest sni⟩]
  | _, _ => []

def State.stepped (s : State n) (leaves : LeafFiles.State (Thread n)) (p q : Phase) : State n :=
  { s with
    leaves
    installed := s.installs p
    served := s.serves q ++ s.served
    issued := s.issues p q ++ s.issued }

def State.answered (s : State n) (reply : Option Bool) : Phase → Sni → Option Bool
  | .asking sni => if reply.isSome then Function.update s.latest sni reply else s.latest
  | _ => s.latest

def recorded (s : State n) (leaves : LeafFiles.State (Thread n)) :
    LeafFiles.Action (Thread n) → State n
  | .advance i _ => s.stepped leaves (s.leaves.threads i) (leaves.threads i)
  | .answer i reply => { s with leaves, latest := s.answered reply (s.leaves.threads i) }
  | _ => { s with leaves }

/-- Only the sweep calls `reload_sni`, after its issuer, and it never calls `resolve`. -/
def apart : LeafFiles.Action (Thread n) → Bool
  | .resolve i _ => i ≠ .sweep
  | .reloadSni _ _ => false
  | _ => true

/-- One directory entry of `sweep`: a leaf that parses, is due or forced, and was not
attempted a short time ago. The issuer of `remint` may not even be spawned. -/
def sweepEntry (cfg : Cfg) (s : State n) (sni : Sni) (unixNow : ℤ) (force spawned : Bool) :
    Option (State n) :=
  if s.reminting.isSome || !(s.leaves.threads .sweep).ended || !plausibleSni sni then none
  else
    match (s.leaves.disk sni).cert.bind fun cert => cfg.parseValidity cert.octets with
    | none => none
    | some (notBefore, notAfter) =>
      if !(cfg.due unixNow notBefore notAfter || force) then none
      else if (s.lastAttempt sni).any (fun last => decide (unixNow - last < cfg.minReattempt))
        then none
      else
        let lastAttempt := Function.update s.lastAttempt sni (some unixNow)
        if spawned then some { s with
          leaves := s.leaves.begin sni
          reminting := some (sni, s.leaves.nextRun)
          lastAttempt
          issued := ⟨sni, true, s.latest sni⟩ :: s.issued }
        else some { s with lastAttempt }

/-- The end of `remint`: only a success is followed by `reload_sni`. -/
def remint (cfg : Cfg) (s : State n) : Option (State n) :=
  s.reminting.bind fun run =>
    match s.leaves.runs run.2 with
    | some (_, .exited true) =>
      (LeafFiles.step cfg.toCfg s.leaves (.reloadSni .sweep run.1)).map fun leaves =>
        { s with leaves, reminting := none }
    | some (_, .exited false) => some { s with reminting := none }
    | _ => none

/-- Handshakes call `resolve`, all threads take their steps, the authorizer answers and issuers
run; anyone may write the disk; and the sweep looks at an entry and ends its `remint`. -/
inductive Action (n : ℕ) where
  | leaf (a : LeafFiles.Action (Thread n))
  | write (sni : Sni) (dir : Dir)
  | sweepEntry (sni : Sni) (unixNow : ℤ) (force spawned : Bool)
  | remint

def step (cfg : Cfg) (s : State n) : Action n → Option (State n)
  | .leaf a =>
    if apart a then (LeafFiles.step cfg.toCfg s.leaves a).map fun leaves => recorded s leaves a
    else none
  | .write sni dir =>
    some { s with leaves := { s.leaves with disk := Function.update s.leaves.disk sni dir } }
  | .sweepEntry sni unixNow force spawned => sweepEntry cfg s sni unixNow force spawned
  | .remint => remint cfg s

/-! ## What a call knows -/

/-- Of a leaf that is loaded: to replace the cached one there is one; to end a call that asked,
there is none and the answer was yes. -/
def Knows (ready : Sni → Bool) (latest : Sni → Option Bool) (sni : Sni) : Purpose → Prop
  | .refresh _ => ready sni = true
  | .sweep => True
  | .reuse | .minted => ready sni = false ∧ latest sni = some true

/-- What a call knows at its phase of whether the cache has a leaf and of the latest answer. -/
def Fits (ready : Sni → Bool) (latest : Sni → Option Bool) : Phase → Prop
  | .statting sni _ _ _ | .awaiting sni _ (.refresh _) | .leaving sni (.serve _) =>
    ready sni = true
  | .awaiting _ _ .reuse | .awaiting _ _ .minted => False
  | .asking sni | .negating sni _ => ready sni = false
  | .readingCert sni purpose | .readingKey sni purpose _ | .tagging sni purpose _
  | .inserting sni purpose _ _ => Knows ready latest sni purpose
  | .preparing sni | .minting sni _ => ready sni = false ∧ latest sni = some true
  | _ => True

section Fits

variable {ready ready' : Sni → Bool} {latest latest' : Sni → Option Bool}
  {cfg : LeafFiles.Cfg} {s : LeafFiles.State (Thread n)} {ok : Bool} {p q : Phase} {e : Effect}
  {sni : Sni} {purpose : Purpose} {leaf : LeafFiles.Leaf}

private theorem Knows.keep (h : Knows ready latest sni purpose) (hready : ready' sni = ready sni)
    (hlatest : latest' sni = latest sni) : Knows ready' latest' sni purpose := by
  cases purpose with
  | sweep => trivial
  | _ => simpa only [Knows, hready, hlatest] using h

/-- What a call knows without the lock is that the cache has a leaf, and that stays. -/
private theorem Fits.keep (h : Fits ready latest p) (hmono : ∀ x, ready x = true → ready' x = true)
    (hsame : ∀ x, p.held = some x → ready' x = ready x ∧ latest' x = latest x) :
    Fits ready' latest' p := by
  cases p with
  | statting sni locked cached mtime => exact hmono sni h
  | awaiting sni locked purpose =>
    cases purpose with
    | refresh cached => exact hmono sni h
    | _ => exact h
  | leaving sni outcome =>
    cases outcome with
    | serve leaf => exact hmono sni h
    | _ => trivial
  | readingCert sni | readingKey sni | tagging sni | inserting sni =>
    exact Knows.keep h (hsame sni rfl).1 (hsame sni rfl).2
  | asking sni | negating sni | preparing sni | minting sni =>
    simpa only [Fits, (hsame sni rfl).1, (hsame sni rfl).2] using h
  | _ => trivial

private theorem Knows.unloaded (h : Knows ready latest sni purpose) :
    Fits ready latest (LeafFiles.unloaded sni purpose) := by
  cases purpose with
  | refresh cached | reuse => exact h
  | sweep => trivial
  | minted => exact h.1

private theorem Knows.loaded (h : ready sni = true) :
    Fits ready latest (.leaving sni (LeafFiles.loaded leaf purpose)) := by
  cases purpose with
  | sweep => trivial
  | _ => exact h

private theorem fits_finish {locked : Bool} {outcome : LeafFiles.Outcome}
    (h : ∀ leaf, outcome = .serve leaf → ready sni = true) :
    Fits ready latest (LeafFiles.finish sni locked outcome) := by
  cases locked with
  | false => trivial
  | true =>
    cases outcome with
    | serve leaf => exact h leaf rfl
    | _ => trivial

private theorem fits_proceed {locked : Bool} (hasks : cfg.asks = true) (h : ready sni = false) :
    Fits ready latest (LeafFiles.proceed cfg sni locked) := by
  cases locked with
  | false => trivial
  | true =>
    rw [LeafFiles.proceed, hasks]
    exact h

/-- A step changes whether the cache has a leaf only where one is put there. -/
private theorem Does.readies (hp : Fits (fun x => Entry.isReady (s.cache x)) latest p)
    (h : Does cfg s ok p e q) (i : Thread n) (x : Sni) :
    Entry.isReady ((e.on s i).cache x) = Entry.isReady (s.cache x) ∨
      Entry.isReady ((e.on s i).cache x) = true ∧
        ∃ purpose leaf mtime, p = .inserting x purpose leaf mtime := by
  have hnone : ∀ {sni e'}, Entry.isReady (s.cache sni) = false → Entry.isReady e' = false →
      Entry.isReady ((Effect.on s i (.remember sni e')).cache x) = Entry.isReady (s.cache x) := by
    intro sni e' hs he
    by_cases hx : x = sni
    · subst hx
      simp [Effect.on, hs, he]
    · simp [Effect.on, hx]
  cases h with
  | elapsed undecided => exact .inl (hnone undecided rfl)
  | @negates sni denied until_ => exact .inl (hnone hp (by cases denied <;> rfl))
  | @inserts sni purpose leaf mtime =>
    by_cases hx : x = sni
    · subst hx
      exact .inr ⟨by simp [Effect.on, Entry.isReady], purpose, leaf, mtime, rfl⟩
    · exact .inl (by simp [Effect.on, hx])
  | _ => exact .inl rfl

private theorem Does.fits (hasks : cfg.asks = true) (h : Does cfg s ok p e q)
    (hp : Fits (fun x => Entry.isReady (s.cache x)) latest p) (i : Thread n) :
    Fits (fun x => Entry.isReady ((e.on s i).cache x)) latest q := by
  cases h with
  | refused => exact fits_finish (by simp)
  | elapsed undecided => exact fits_proceed hasks (by simp [Effect.on, Entry.isReady])
  | missed undecided => exact fits_proceed hasks undecided
  | found hready => simp [Fits, Effect.on, hready, Entry.isReady]
  | newer | readsCert | readsKey | tags | minted => exact hp
  | current => exact fits_finish fun _ _ => hp
  | @reloads sni locked purpose free =>
    cases purpose with
    | refresh | sweep => exact hp
    | reuse | minted => exact hp.elim
  | noCert | noKey => exact Knows.unloaded hp
  | inserts => exact Knows.loaded (by simp [Effect.on, Entry.isReady])
  | spawns => exact hp
  | unspawned | unminted => exact hp.1
  | locks | negates | leaves => trivial

private theorem Does.serve_ready (h : Does cfg s ok p e (.returned sni (.serve leaf)))
    (hp : Fits ready latest p) : ready sni = true := by
  generalize hq : Phase.returned sni (.serve leaf) = q at h
  cases h with
  | @refused _ locked => cases locked <;> cases hq
  | @elapsed _ locked | @missed _ locked =>
    cases locked with
    | false => cases hq
    | true =>
      simp only [LeafFiles.proceed] at hq
      split_ifs at hq
  | @current _ locked =>
    cases locked <;> cases hq
    exact hp
  | @noCert _ purpose | @noKey _ purpose => cases purpose <;> cases hq
  | leaves =>
    cases hq
    exact hp
  | _ => cases hq

private theorem Does.fits_serves {s : State n} {entry : Served} (h : Does cfg s.leaves ok p e q)
    (hp : Fits s.ready s.latest p) (hentry : entry ∈ s.serves q) :
    ∃ x, s.ready x = true ∧ entry = ⟨x, s.latest x, s.installed x⟩ := by
  cases q with
  | returned sni outcome =>
    cases outcome with
    | serve leaf => exact ⟨sni, Does.serve_ready h hp, List.mem_singleton.mp hentry⟩
    | _ => cases hentry
  | _ => cases hentry

private theorem Fits.issues {s : State n} {entry : Issued} (hp : Fits s.ready s.latest p)
    (hentry : entry ∈ s.issues p q) : entry.latest = some true := by
  cases p with
  | preparing sni =>
    cases q with
    | minting other r =>
      rw [List.mem_singleton.mp hentry]
      exact hp.2
    | _ => cases hentry
  | _ => cases hentry

end Fits

/-! ## The invariant -/

structure Inv (s : State n) : Prop where
  locked : Locked s.leaves
  fits : ∀ i, Fits s.ready s.latest (s.leaves.threads i)
  ready : ∀ sni, s.ready sni = true → s.installed sni = true ∨ s.latest sni = some true
  served : ∀ e ∈ s.served, e.installed = false → e.latest = some true
  issued : ∀ e ∈ s.issued, e.bySweep = false → e.latest = some true

theorem start_inv (disk : Sni → Dir) : Inv (start n disk) where
  locked := (Locked.start _ : Locked (LeafFiles.start (Thread n) fun _ => none))
  fits := fun _ => trivial
  ready := fun _ h => by cases h
  served := fun _ h => by cases h
  issued := fun _ h => by cases h

section Steps

variable {cfg : Cfg} {s t : State n} {i : Thread n} {sni : Sni}

/-- What a thread changes of the cache and of the answers is of an SNI whose lock it holds. -/
private theorem Inv.others (h : Inv s) (hmono : ∀ x, s.ready x = true → t.ready x = true)
    (hsame : ∀ x, (s.leaves.threads i).held = some x ∨
      t.ready x = s.ready x ∧ t.latest x = s.latest x) {j : Thread n} (hj : j ≠ i) :
    Fits t.ready t.latest (s.leaves.threads j) := by
  refine (h.fits j).keep hmono fun x hx => (hsame x).resolve_left fun hi => hj ?_
  have hholder := (h.locked x j).mpr hx
  rw [(h.locked x i).mpr hi] at hholder
  exact (Option.some.inj hholder).symm

private theorem installs_mono (s : State n) (p : Phase) (h : s.installed sni = true) :
    s.installs p sni = true := by
  unfold State.installs
  split
  case h_1 other _ _ =>
    by_cases hx : sni = other
    · subst hx
      simp [h]
    · simpa [hx] using h
  case h_2 => exact h

/-- A leaf that is put in the cache is one asked for, one in place of another, or the sweep's. -/
private theorem Inv.inserted (h : Inv s) {purpose : Purpose} {leaf : LeafFiles.Leaf}
    {mtime : Option ℕ} (hp : Knows s.ready s.latest sni purpose) :
    s.installs (.inserting sni purpose leaf mtime) sni = true ∨ s.latest sni = some true := by
  cases purpose with
  | refresh cached => exact h.ready sni hp
  | reuse | minted => exact .inr hp.2
  | sweep =>
    cases hready : s.ready sni with
    | false => exact .inl (by simp [State.installs, hready])
    | true => exact (h.ready sni hready).imp_left (installs_mono s _)

private theorem Inv.advance (hasks : cfg.asks = true) (h : Inv s) {ok : Bool} {e : Effect}
    {q : Phase} (does : Does cfg.toCfg s.leaves ok (s.leaves.threads i) e q) :
    Inv (s.stepped ((e.on s.leaves i).goto i q) (s.leaves.threads i) q) := by
  have hp := h.fits i
  have hreadies := Does.readies hp does i
  have hmono : ∀ x, s.ready x = true → Entry.isReady ((e.on s.leaves i).cache x) = true := by
    intro x hx
    rcases hreadies x with hsame | ⟨hnow, -⟩
    · exact hsame.trans hx
    · exact hnow
  refine ⟨h.locked.advance does, ?_, fun x hx => ?_, fun entry he => ?_, fun entry he => ?_⟩
  · change ∀ j, Fits _ s.latest (Function.update (e.on s.leaves i).threads i q j)
    rw [LeafFiles.on_threads]
    refine (Function.forall_update_iff _ _).mpr ⟨Does.fits hasks does hp i, fun j hj => ?_⟩
    refine h.others (t := s.stepped ((e.on s.leaves i).goto i q) (s.leaves.threads i) q) hmono
      (fun x => ?_) hj
    rcases hreadies x with hsame | ⟨-, purpose, leaf, mtime, hins⟩
    · exact .inr ⟨hsame, rfl⟩
    · exact .inl (by rw [hins]; rfl)
  · rcases hreadies x with hsame | ⟨-, purpose, leaf, mtime, hins⟩
    · exact (h.ready x (hsame.symm.trans hx)).imp_left (installs_mono s _)
    · change s.installs (s.leaves.threads i) x = true ∨ _
      rw [hins] at hp ⊢
      exact h.inserted hp
  · rcases List.mem_append.mp he with hnew | hold
    · obtain ⟨x, hready, rfl⟩ := Does.fits_serves does hp hnew
      intro hinstalled
      exact (h.ready x hready).resolve_left (by simp_all)
    · exact h.served entry hold
  · rcases List.mem_append.mp he with hnew | hold
    · exact fun _ => hp.issues hnew
    · exact h.issued entry hold

/-- The authorizer is asked for an SNI only while no leaf of it is in the cache, so an answer
never turns against a leaf that is being served. -/
private theorem Inv.answer (h : Inv s) {reply : Option Bool}
    (hasking : s.leaves.threads i = .asking sni) :
    Inv { s with
      leaves := s.leaves.goto i (LeafFiles.answered sni reply)
      latest := s.answered reply (s.leaves.threads i) } := by
  have hp := h.fits i
  rw [hasking] at hp ⊢
  have hlatest : ∀ x, x ≠ sni → s.answered reply (.asking sni) x = s.latest x := by
    intro x hx
    cases reply <;> simp [State.answered, hx]
  refine ⟨h.locked.goto ?_, (Function.forall_update_iff _ _).mpr ⟨?_, fun j hj => ?_⟩,
    fun x hx => ?_, h.served, h.issued⟩
  · rw [LeafFiles.answered_held, hasking]
    rfl
  · rcases reply with _ | _ | _
    · exact hp
    · exact hp
    · exact ⟨hp, by simp [State.answered]⟩
  · refine h.others (t := { s with
      leaves := s.leaves.goto i (LeafFiles.answered sni reply)
      latest := s.answered reply (.asking sni) }) (fun _ hx => hx) (fun x => ?_) hj
    by_cases hx : x = sni
    · exact .inl (by rw [hasking, hx]; rfl)
    · exact .inr ⟨rfl, hlatest x hx⟩
  · have hne : x ≠ sni := by
      rintro rfl
      exact Bool.false_ne_true (hp.symm.trans hx)
    exact (h.ready x hx).imp_right (hlatest x hne).trans

/-- A call begins where the thread's last one ended. -/
private theorem Inv.called (h : Inv s) {q : Phase} (hended : (s.leaves.threads i).ended = true)
    (hheld : q.held = none) (hq : Fits s.ready s.latest q) :
    Inv { s with leaves := s.leaves.goto i q } :=
  ⟨h.locked.goto (hheld.trans (LeafFiles.Phase.held_of_ended hended).symm),
    (Function.forall_update_iff _ _).mpr ⟨hq, fun j _ => h.fits j⟩, h.ready, h.served, h.issued⟩

private theorem Inv.resolve (h : Inv s) (hended : (s.leaves.threads i).ended = true) (sni : Sni) :
    Inv { s with leaves := s.leaves.goto i (LeafFiles.resolve cfg.toCfg sni) } := by
  apply h.called hended <;> unfold LeafFiles.resolve <;> split <;> trivial

private theorem Inv.reloadSni (h : Inv s) (hended : (s.leaves.threads i).ended = true) (sni : Sni) :
    Inv { s with leaves := s.leaves.goto i (LeafFiles.reloadSni cfg.toCfg sni) } := by
  apply h.called hended <;> unfold LeafFiles.reloadSni <;> split <;> trivial

private theorem Inv.leaf (hasks : cfg.asks = true) (h : Inv s) {a : LeafFiles.Action (Thread n)}
    {leaves : LeafFiles.State (Thread n)}
    (hstep : LeafFiles.step cfg.toCfg s.leaves a = some leaves) :
    Inv (recorded s leaves a) := by
  cases takes_of_step hstep with
  | resolve hended => exact h.resolve hended _
  | reloadSni hended => exact h.reloadSni hended _
  | @advance i ok e q does =>
    have hq : ((e.on s.leaves i).goto i q).threads i = q := Function.update_self ..
    rw [recorded, hq]
    exact h.advance hasks does
  | answer hasking => exact h.answer hasking
  | issue | writeCert | writeKey | exit | tick =>
    exact ⟨h.locked, h.fits, h.ready, h.served, h.issued⟩

theorem sweepEntry_inv {unixNow : ℤ} {force spawned : Bool} (h : Inv s)
    (hstep : sweepEntry cfg s sni unixNow force spawned = some t) : Inv t := by
  unfold sweepEntry at hstep
  split at hstep
  · cases hstep
  split at hstep
  · cases hstep
  split_ifs at hstep <;> cases hstep
  · refine ⟨h.locked, h.fits, h.ready, h.served, fun entry he => ?_⟩
    rcases List.mem_cons.mp he with rfl | hold
    · intro hby
      cases hby
    · exact h.issued entry hold
  · exact ⟨h.locked, h.fits, h.ready, h.served, h.issued⟩

theorem remint_inv (h : Inv s) (hstep : remint cfg s = some t) : Inv t := by
  obtain ⟨⟨sni, r⟩, -, hstep⟩ := Option.bind_eq_some_iff.mp hstep
  split at hstep
  · obtain ⟨leaves, hleaves, rfl⟩ := Option.map_eq_some_iff.mp hstep
    cases takes_of_step hleaves with
    | reloadSni hended =>
      have hcalled : Inv { s with
          leaves := s.leaves.goto .sweep (LeafFiles.reloadSni cfg.toCfg sni) } :=
        h.reloadSni hended sni
      exact ⟨hcalled.locked, hcalled.fits, hcalled.ready, hcalled.served, hcalled.issued⟩
  · cases hstep
    exact ⟨h.locked, h.fits, h.ready, h.served, h.issued⟩
  · cases hstep

theorem step_inv {a : Action n} (hasks : cfg.asks = true) (h : Inv s)
    (hstep : step cfg s a = some t) : Inv t := by
  cases a with
  | leaf a =>
    simp only [step] at hstep
    split at hstep
    · obtain ⟨leaves, hleaves, rfl⟩ := Option.map_eq_some_iff.mp hstep
      exact h.leaf hasks hleaves
    · cases hstep
  | write sni dir =>
    cases hstep
    exact ⟨h.locked, h.fits, h.ready, h.served, h.issued⟩
  | sweepEntry sni unixNow force spawned => exact sweepEntry_inv h hstep
  | remint => exact remint_inv h hstep

end Steps

/-- With an authorizer configured, from any leaves on disk and through any interleaving:
`resolve` serves a leaf of an SNI, where no sweep has put one in place of none, and has one
issued, only after the authorizer's latest answer for that SNI was yes. -/
theorem resolve_only_after_yes {cfg : Cfg} {disk : Sni → Dir} {acts : List (Action n)}
    {s : State n} (hasks : cfg.asks = true) (hrun : run (step cfg) (start n disk) acts = some s) :
    (∀ e ∈ s.served, e.installed = false → e.latest = some true) ∧
      ∀ e ∈ s.issued, e.bySweep = false → e.latest = some true := by
  have hinv := invariant_of_step (fun h hstep => step_inv hasks h hstep) (start_inv disk) hrun
  exact ⟨hinv.served, hinv.issued⟩

def asking : Cfg where
  enabled := true
  asks := true
  cooldown := 0
  minReattempt := 0
  parseValidity := fun _ => some (0, 0)
  due := fun _ _ _ => true

def leaf : Dir := ⟨some ⟨[1], 0⟩, some (⟨List.replicate 32 2, 0⟩, 0)⟩

def caller : Thread 1 := .handshake ⟨0, Nat.one_pos⟩

def advances (t : Thread 1) (k : ℕ) : List (Action 1) := List.replicate k (.leaf (.advance t true))

/-- Issuer run 1 writes its two files and exits. -/
def issuer : List (Action 1) :=
  [.leaf (.writeCert 1 [1]), .leaf (.writeKey 1 (List.replicate 32 2) 0), .leaf (.exit 1 true)]

/-- No leaf on disk; the authorizer says yes; the issuer writes the leaf. -/
def grantedRun : List (Action 1) :=
  .leaf (.resolve caller [97]) :: advances caller 3 ++
    .leaf (.answer caller (some true)) :: advances caller 2 ++ issuer ++ advances caller 6

theorem grantedRun_serves :
    ∃ s, run (step asking) (start 1 fun _ => ⟨none, none⟩) grantedRun = some s ∧
      s.served.length = 1 ∧ s.issued.length = 1 ∧
      (∀ e ∈ s.served, e.installed = false → e.latest = some true) ∧
      ∀ e ∈ s.issued, e.bySweep = false → e.latest = some true := by
  have hasks : asking.asks = true := rfl
  have hrun : ∃ s, run (step asking) (start 1 fun _ => ⟨none, none⟩) grantedRun = some s ∧
      s.served.length = 1 ∧ s.issued.length = 1 := ⟨_, rfl, rfl, rfl⟩
  obtain ⟨s, hrun, hserved, hissued⟩ := hrun
  exact ⟨s, hrun, hserved, hissued, resolve_only_after_yes hasks hrun⟩

/-- The authorizer says no to an SNI that has a leaf on disk. The sweep runs the issuer for it
and puts the leaf in the cache over the refusal; the next call serves it. -/
def deniedRun : List (Action 1) :=
  .leaf (.resolve caller [97]) :: advances caller 3 ++
    .leaf (.answer caller (some false)) :: advances caller 2 ++
    .sweepEntry [97] 0 false true :: issuer ++ .remint :: advances .sweep 6 ++
    .leaf (.resolve caller [97]) :: advances caller 2

theorem sweep_serves_denied :
    ∃ s, run (step asking) (start 1 fun _ => leaf) deniedRun = some s ∧
      (∃ e ∈ s.served, e.sni = [97] ∧ e.latest = some false) ∧
      ∃ e ∈ s.issued, e.sni = [97] ∧ e.latest = some false := by
  refine ⟨_, rfl, ⟨_, List.mem_cons_self, rfl, rfl⟩, ⟨_, List.mem_cons_self, rfl, rfl⟩⟩

end DragonsNet.Dataplane.OnDemand
