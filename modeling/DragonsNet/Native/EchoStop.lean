/- GID: DragonsNet/Native/EchoStop
   source: native/echo_uring.c
   digest: A stop of the echo host reaches every thread. -/

import DragonsNet.Native.EchoAdmission

set_option autoImplicit false

namespace DragonsNet.Native.EchoUring

open Lib
open Lib.Runs
open Native.NntpRing (token tokenKind tokenSlot tokenGen)

variable {cfg : Config}

namespace Worker

variable {k now : ℕ} {w : Worker cfg} {i : Fin cfg.slots}

private theorem completed_spec {c : Cqe} {w' : Worker cfg} (h : w.completed k now c = .ok w') :
    w.pending <+: w'.pending ∧ (w'.stopping = true ∨
      Kind.ofCode (tokenKind c.token) ≠ some .stop ∧ w'.stopping = w.stopping) := by
  have hserves : ∀ {kind : Kind}, Kind.ofCode (tokenKind c.token) = some kind → kind ≠ .stop →
      w.pending <+: w'.pending → w'.stopping = w.stopping → w.pending <+: w'.pending ∧
        (w'.stopping = true ∨ Kind.ofCode (tokenKind c.token) ≠ some .stop ∧ w'.stopping = w.stopping) := by
    intro kind hkind hne hpending hstopping
    refine ⟨hpending, .inr ⟨?_, hstopping⟩⟩
    rw [hkind]
    exact fun heq => hne (Option.some.inj heq)
  have hslot : ∀ {kind : Kind}, Kind.ofCode (tokenKind c.token) = some kind → kind ≠ .stop →
      w.slotCompleted k now kind c = .ok w' → _ := fun hkind hne hdone =>
    hserves hkind hne (grows_slotCompleted hdone).pending (grows_slotCompleted hdone).stopping
  rw [Worker.completed] at h
  split at h
  · rename_i hkind
    obtain ⟨-, -, hpending, hstopping⟩ := take_spec h
    exact hserves hkind (by decide) hpending hstopping
  · obtain rfl := Except.ok.inj h
    exact ⟨(stopped_spec k w).2.1, .inl (stopped_spec k w).2.2⟩
  · rename_i hkind
    split at h
    · cases h
    · obtain rfl := Except.ok.inj h
      exact hserves hkind (by decide) List.prefix_rfl rfl
  · exact hslot ‹_› (by decide) h
  · exact hslot ‹_› (by decide) h
  · exact hslot ‹_› (by decide) h
  · cases h

private theorem Executed.spec {op : Op cfg.slots} {w' : Worker cfg}
    {talks talks' : EchoKernel.Talks}
    {z : ℤ} (h : w.Executed talks op w' talks' z) :
    w'.pending = w.pending ∧ w'.held = w.held ∧ w'.stopping = w.stopping := by
  cases h with
  | received | sent | receivedNone | sentNone | cancelled => exact ⟨rfl, rfl, rfl⟩

end Worker

namespace Main

variable {now : ℕ} {m : Main cfg}

def stopMessage (k : Fin cfg.threads) : Item (MainOp cfg.threads) :=
  .flying (Kind.told.tok k 0) (.message k (Kind.stop.tok 0 0) 0)

/-- The main thread adds to what its ring has pending. Once it stops it asks for nothing more, and
when it stops it tells every thread. -/
structure Heeds (m m' : Main cfg) : Prop where
  pending : m.pending <+: m'.pending
  stopping : m.stopping = true → m'.stopping = true ∧ m'.pending = m.pending
  tells : m'.stopping = true → m.stopping = true ∨ ∀ k, stopMessage k ∈ m'.pending

private theorem heeds_of_eq {m' : Main cfg} (hpending : m'.pending = m.pending)
    (hstopping : m'.stopping = m.stopping) : Heeds m m' :=
  ⟨hpending ▸ List.prefix_rfl, fun hstop => ⟨hstopping.trans hstop, hpending⟩,
    fun hstop => .inl (hstopping.symm.trans hstop)⟩

private theorem tellStop_spec (m : Main cfg) :
    m.pending <+: m.tellStop.pending ∧ m.tellStop.stopping = m.stopping ∧
      ∀ k, stopMessage k ∈ m.tellStop.pending := by
  have hfold : ∀ (l : List (Fin cfg.threads)) (m : Main cfg),
      (l.foldl (fun m (k : Fin cfg.threads) =>
        m.submit (Kind.told.tok k 0) (.message k (Kind.stop.tok 0 0) 0)) m) =
      { m with pending := m.pending ++ l.map stopMessage } := by
    intro l
    induction l with
    | nil => intro m; rw [List.map_nil, List.append_nil]; rfl
    | cons k l ih =>
      intro m
      rw [List.foldl_cons, ih]
      show ({ m with pending := m.pending ++ [stopMessage k] ++ l.map stopMessage } : Main cfg) = _
      rw [List.append_assoc]
      rfl
  rw [Main.tellStop, hfold]
  refine ⟨List.prefix_append _ _, rfl, ?_⟩
  intro k
  exact List.mem_append_right _ (List.mem_map_of_mem (List.mem_finRange k))

private theorem cancelIf_spec (m : Main cfg) (armed : Bool) (slot token : ℕ) :
    m.pending <+: (m.cancelIf armed slot token).pending ∧
      (m.cancelIf armed slot token).stopping = m.stopping := by
  rw [Main.cancelIf]
  split
  · exact ⟨List.prefix_append _ _, rfl⟩
  · exact ⟨List.prefix_rfl, rfl⟩

private theorem heeds_stop (m : Main cfg) : Heeds m m.stop := by
  rw [Main.stop]
  split
  · rename_i hstop
    exact heeds_of_eq rfl rfl
  · rename_i hgoing
    have haccept := cancelIf_spec { m with stopping := true } m.accepting 0 (Kind.accept.tok 0 0)
    have hsignal := cancelIf_spec
      (cancelIf { m with stopping := true } m.accepting 0 (Kind.accept.tok 0 0)) m.signalArmed 1
      (Kind.signal.tok 0 0)
    have htold := tellStop_spec ((cancelIf { m with stopping := true } m.accepting 0
      (Kind.accept.tok 0 0)).cancelIf m.signalArmed 1 (Kind.signal.tok 0 0))
    exact ⟨(haccept.1.trans hsignal.1).trans htold.1, fun hstop => absurd hstop hgoing,
      fun _ => .inr htold.2.2⟩

theorem Heeds.after {m₁ m₂ m₃ : Main cfg} (h : Heeds m₂ m₃) (hpending : m₂.pending = m₁.pending)
    (hstopping : m₂.stopping = m₁.stopping) : Heeds m₁ m₃ :=
  ⟨hpending ▸ h.pending, fun hstop => hpending ▸ h.stopping (hstopping.trans hstop),
    fun hstop => (h.tells hstop).imp_left hstopping.symm.trans⟩

private theorem heeds_hand (m : Main cfg) (fd : ℕ) (shaped : Bool) (hgoing : m.stopping ≠ true) :
    Heeds m (m.hand fd shaped) := by
  rw [Main.hand]
  split
  · exact heeds_of_eq rfl rfl
  · exact ⟨List.prefix_append _ _, fun hstop => absurd hstop hgoing,
      fun hstop => absurd hstop hgoing⟩

private theorem heeds_mainCompleted {c : Cqe} {answer : Bool} {m' : Main cfg}
    (h : m.mainCompleted now c answer = .ok m') : Heeds m m' := by
  rw [Main.mainCompleted] at h
  split at h
  · split at h
    · cases h
    · obtain rfl := Except.ok.inj h
      exact heeds_of_eq rfl rfl
  · obtain rfl := Except.ok.inj h
    split
    · split
      · exact heeds_of_eq rfl rfl
      · rename_i hgoing
        exact (heeds_hand { m with accepting := false } _ _ hgoing).after rfl rfl
    · split
      · exact heeds_of_eq rfl rfl
      · split
        · exact heeds_of_eq rfl rfl
        · exact heeds_of_eq rfl rfl
        · exact (heeds_stop { m with accepting := false, result := 1 }).after rfl rfl
  · obtain rfl := Except.ok.inj h
    split
    · exact heeds_of_eq rfl rfl
    · split
      · exact (heeds_stop { m with signalArmed := false }).after rfl rfl
      · exact heeds_of_eq rfl rfl
  · split at h
    · obtain rfl := Except.ok.inj h
      exact heeds_of_eq rfl rfl
    · split at h
      · cases h
      · obtain rfl := Except.ok.inj h
        exact heeds_of_eq rfl rfl
  · obtain rfl := Except.ok.inj h
    exact heeds_of_eq rfl rfl
  · cases h

private theorem arm_spec (now : ℕ) (m : Main cfg) :
    m.pending <+: (m.arm now).pending ∧ (m.arm now).stopping = m.stopping ∧
      (m.stopping = true → (m.arm now).pending = m.pending) := by
  cases hstop : m.stopping with
  | true =>
    have hstill : m.arm now = m := by
      simp only [Main.arm, hstop, reduceCtorEq, false_and, if_false]
    rw [hstill, hstop]
    exact ⟨List.prefix_rfl, rfl, fun _ => rfl⟩
  | false =>
    rw [Main.arm]
    split
    · split
      · exact ⟨(List.prefix_append _ _).trans (List.prefix_append _ _), hstop, fun h => by cases h⟩
      · exact ⟨List.prefix_append _ _, hstop, fun h => by cases h⟩
    · split
      · exact ⟨List.prefix_append _ _, hstop, fun h => by cases h⟩
      · exact ⟨List.prefix_rfl, hstop, fun h => by cases h⟩

end Main

namespace Host

variable {h : Host cfg} {α : Type} {l : List α} {m : Main cfg} {k : Fin cfg.threads} {h' : Host cfg}
  {j token : ℕ} {op : MainOp cfg.threads}

/-- A thread stops, or the message that stops it is on its way, or could not be sent. -/
def Told (h : Host cfg) (k : Fin cfg.threads) : Prop :=
  (h.workers k).stopping = true ∨
  Item.done ⟨Kind.stop.tok 0 0, 0⟩ ∈ (h.workers k).pending ∨
  Main.stopMessage k ∈ h.main.pending ∨
  ∃ z < 0, Item.done ⟨Kind.told.tok k 0, z⟩ ∈ h.main.pending

structure Stops (h : Host cfg) : Prop where
  ok : h.Ok
  told : h.main.stopping = true → ∀ k, h.Told k

private theorem mem_eraseIdx_or {j : ℕ} {x y : α} (hy : l[j]? = some y) (hx : x ∈ l) :
    x = y ∨ x ∈ l.eraseIdx j := by
  obtain ⟨i, hi⟩ := List.mem_iff_getElem?.mp hx
  by_cases hij : i = j
  · subst hij
    exact .inl (Option.some.inj (hi.symm.trans hy))
  · exact .inr (List.mem_eraseIdx_iff_getElem?.mpr ⟨i, hij, hi⟩)

private theorem mem_set_or {j : ℕ} {x y : α} (hy : l[j]? = some y) (hx : x ∈ l) (z : α) :
    x = y ∨ x ∈ l.set j z := by
  rcases mem_eraseIdx_or hy hx with heq | herase
  · exact .inl heq
  · obtain ⟨i, hij, hi⟩ := List.mem_eraseIdx_iff_getElem?.mp herase
    exact .inr (List.mem_iff_getElem?.mpr ⟨i, (List.getElem?_set_ne hij.symm).trans hi⟩)

private theorem mem_of_set {j : ℕ} {y : α} (hy : l[j]? = some y) (z : α) : z ∈ l.set j z :=
  List.mem_set (List.getElem?_eq_some_iff.mp hy).1 z

theorem Told.setWorker {k j : Fin cfg.threads} {w : Worker cfg} (T : h.Told j)
    (hkeeps : (h.workers k).stopping = true → w.stopping = true)
    (hstop : Item.done ⟨Kind.stop.tok 0 0, 0⟩ ∈ (h.workers k).pending → w.stopping = true ∨
      Item.done ⟨Kind.stop.tok 0 0, 0⟩ ∈ w.pending) : (h.setWorker k w).Told j := by
  by_cases hj : j = k
  · subst hj
    have hself : (h.setWorker j w).workers j = w := Function.update_self ..
    rcases T with hstopping | harrived | hsent | hfailed
    · exact .inl (by rw [hself]; exact hkeeps hstopping)
    · rw [Told, hself]
      rcases hstop harrived with hstopping | hpending
      · exact .inl hstopping
      · exact .inr (.inl hpending)
    · exact .inr (.inr (.inl hsent))
    · exact .inr (.inr (.inr hfailed))
  · have hother : (h.setWorker k w).workers j = h.workers j := Function.update_of_ne hj ..
    rw [Told, hother]
    exact T

theorem Told.setMain {j : Fin cfg.threads} (T : h.Told j)
    (hkeeps : ∀ x ∈ h.main.pending, x = Main.stopMessage j ∨ (∃ z < 0, x =
      .done ⟨Kind.told.tok j 0, z⟩) → x ∈ m.pending) : ({ h with main := m } : Host cfg).Told j := by
  rcases T with hstopping | harrived | hsent | ⟨z, hz, hfailed⟩
  · exact .inl hstopping
  · exact .inr (.inl harrived)
  · exact .inr (.inr (.inl (hkeeps _ hsent (.inl rfl))))
  · exact .inr (.inr (.inr ⟨z, hz, hkeeps _ hfailed (.inr ⟨z, hz, rfl⟩)⟩))

private theorem mainCompleted_failed {now : ℕ} {c : Cqe} {answer : Bool} {z : ℤ} (hz : z < 0)
    (hc : c = ⟨Kind.told.tok k 0, z⟩) : m.mainCompleted now c answer = .error .harness := by
  have hgen : tokenGen (Kind.told.tok k 0) ≠ 1 := by
    rw [tokenGen_tok (Nat.two_pow_pos 32)]
    exact Nat.zero_ne_one
  subst hc
  rw [Main.mainCompleted]
  simp only [ofCode_tok]
  rw [if_neg (fun hboth => hgen hboth.2), if_pos hz]

theorem Stops.mainTake (S : h.Stops) {j : ℕ} {c : Cqe} {answer : Bool}
    (hc : h.main.pending[j]? = some (.done c))
    (hdone : ({ h.main with pending := h.main.pending.eraseIdx j } : Main cfg).mainCompleted h.now c
      answer = .ok m) (hstop : m.stopping = true) (k : Fin cfg.threads) :
    ({ h with main := m } : Host cfg).Told k := by
  have hheeds := Main.heeds_mainCompleted hdone
  rcases hheeds.tells hstop with hbefore | htold
  · refine (S.told hbefore k).setMain ?_
    intro x hx hmessage
    rcases mem_eraseIdx_or hc hx with rfl | hkept
    · rcases hmessage with hflying | ⟨z, hz, hfailed⟩
      · cases hflying
      · rw [mainCompleted_failed hz (Item.done.inj hfailed)] at hdone
        cases hdone
    · exact hheeds.pending.subset hkept
  · exact .inr (.inr (.inl (htold k)))

theorem MainExecuted.cases (hexec : h.MainExecuted j token op h') :
    (∃ z, h'.main = { h.main with pending := h.main.pending.set j (.done ⟨token, z⟩) } ∧
      h'.workers = h.workers ∧ ∀ k tok res, op = .message k tok res → z < 0) ∨
    ∃ k tok res, op = .message k tok res ∧
      h' = ({ h with main := { h.main with
          pending := h.main.pending.set j (.done ⟨token, 0⟩) } } : Host cfg).setWorker k
        { h.workers k with pending := (h.workers k).pending ++ [.done ⟨tok, res⟩] } := by
  cases hexec with
  | @accepted fd => exact .inl ⟨fd, rfl, rfl, fun k tok res hop => by cases hop⟩
  | @completed _ z hz => exact .inl ⟨z, rfl, rfl, fun k tok res hop => hz (.inr ⟨k, tok, res, hop⟩)⟩
  | delivered k tok res => exact .inr ⟨k, tok, res, rfl, rfl⟩

theorem Executed.cases {op : Op cfg.slots} (hexec : h.Executed k j token op h') :
    (∃ (w : Worker cfg) (talks : EchoKernel.Talks) (z : ℤ), w.pending = (h.workers k).pending ∧
      w.held = (h.workers k).held ∧ w.stopping = (h.workers k).stopping ∧
      h' = { h.setWorker k { w with pending := w.pending.set j (.done ⟨token, z⟩) } with talks }) ∨
    ∃ tok res, op = .message tok res ∧
      h' = ({ h with main := { h.main with
          pending := h.main.pending ++ [.done ⟨tok, res⟩] } } : Host cfg).setWorker k
        { h.workers k with pending := (h.workers k).pending.set j (.done ⟨token, 0⟩) } := by
  cases hexec with
  | @slot _ w talks z hslot =>
    obtain ⟨hpending, hheld, hstopping⟩ := hslot.spec
    exact .inl ⟨w, talks, z, hpending, hheld, hstopping, rfl⟩
  | @failed _ _ z _ => exact .inl ⟨h.workers k, h.talks, z, rfl, rfl, rfl, rfl⟩
  | told tok res => exact .inr ⟨tok, res, rfl, rfl⟩

theorem Told.mainExecute (T : h.Told k) (hx : h.main.pending[j]? = some (.flying token op))
    (hexec : h.MainExecuted j token op h') : h'.Told k := by
  rcases hexec.cases with ⟨z, hmain, hworkers, hfails⟩ | ⟨t, tok, res, rfl, rfl⟩
  · rw [Told, hmain, hworkers]
    rcases T with hstopping | harrived | hsent | ⟨y, hy, hfailed⟩
    · exact .inl hstopping
    · exact .inr (.inl harrived)
    · rcases mem_set_or hx hsent (.done ⟨token, z⟩) with heq | hkept
      · obtain ⟨rfl, hop⟩ := Item.flying.inj heq
        exact .inr (.inr (.inr ⟨z, hfails _ _ _ hop.symm, mem_of_set hx _⟩))
      · exact .inr (.inr (.inl hkept))
    · rcases mem_set_or hx hfailed (.done ⟨token, z⟩) with heq | hkept
      · cases heq
      · exact .inr (.inr (.inr ⟨y, hy, hkept⟩))
  · by_cases hsent : Main.stopMessage k = .flying token (.message t tok res)
    · obtain ⟨-, hop⟩ := Item.flying.inj hsent
      obtain ⟨rfl, rfl, rfl⟩ := MainOp.message.inj hop
      refine .inr (.inl ?_)
      show _ ∈ (Function.update h.workers k _ k).pending
      rw [Function.update_self]
      exact List.mem_append_right _ (List.mem_singleton_self _)
    · have hmain : ({ h with main := { h.main with
          pending := h.main.pending.set j (.done ⟨token, 0⟩) } } : Host cfg).Told k := by
        refine T.setMain ?_
        intro x hmem hmessage
        rcases mem_set_or hx hmem (.done ⟨token, 0⟩) with rfl | hkept
        · rcases hmessage with heq | ⟨z, -, heq⟩
          · exact absurd heq.symm hsent
          · cases heq
        · exact hkept
      exact hmain.setWorker id fun hmem => .inr (List.mem_append_left _ hmem)

theorem Told.execute {i k : Fin cfg.threads} (T : h.Told i) {op : Op cfg.slots}
    (hx : (h.workers k).pending[j]? = some (.flying token op)) (hexec : h.Executed k j token op h')
    :
    h'.Told i := by
  have hkept : ∀ {z : ℤ}, Item.done ⟨Kind.stop.tok 0 0, 0⟩ ∈ (h.workers k).pending →
      Item.done ⟨Kind.stop.tok 0 0, 0⟩ ∈ (h.workers k).pending.set j (.done ⟨token, z⟩) := by
    intro z hmem
    rcases mem_set_or hx hmem (.done ⟨token, z⟩) with heq | hkept
    · cases heq
    · exact hkept
  rcases hexec.cases with ⟨w, talks, z, hpending, -, hstopping, rfl⟩ | ⟨tok, res, rfl, rfl⟩
  · refine T.setWorker (fun hstop => hstopping.trans hstop) fun hmem => .inr ?_
    rw [hpending]
    exact hkept hmem
  · have hmain : ({ h with main := { h.main with
        pending := h.main.pending ++ [.done ⟨tok, res⟩] } } : Host cfg).Told i :=
      T.setMain fun x hmem _ => List.mem_append_left _ hmem
    exact hmain.setWorker id fun hmem => .inr (hkept hmem)

private theorem Stops.told_step (S : h.Stops) {a : Act cfg} (hstep : h.Stepped a (.ok h'))
    (hstop : h'.main.stopping = true) (k : Fin cfg.threads) : h'.Told k := by
  cases hstep with
  | arm =>
    have harm := Main.arm_spec h.now h.main
    exact (S.told (harm.2.1.symm.trans hstop) k).setMain fun x hx _ => harm.1.subset hx
  | mainTake hc hdone => exact S.mainTake hc hdone hstop k
  | mainLeave => exact (S.told hstop k).setMain fun x hx _ => hx
  | tick ms => exact S.told hstop k
  | expire i =>
    have hgrows := Worker.grows_expire i h.now (h.workers i)
    exact (S.told hstop k).setWorker hgrows.stopping.trans
      fun hmem => .inr (hgrows.pending.subset hmem)
  | take hc hdone =>
    obtain ⟨hpending, hcourse⟩ := Worker.completed_spec hdone
    refine (S.told hstop k).setWorker ?_ ?_
    · intro hwas
      rcases hcourse with hstopped | ⟨-, hsame⟩
      · exact hstopped
      · exact hsame.trans hwas
    · intro hmem
      rcases hcourse with hstopped | ⟨hkind, -⟩
      · exact .inl hstopped
      · rcases mem_eraseIdx_or hc hmem with heq | hkept
        · rw [← Item.done.inj heq, ofCode_tok] at hkind
          exact absurd rfl hkind
        · exact .inr (hpending.subset hkept)
  | leave i => exact (S.told hstop k).setWorker id .inr
  | mainExec hx hexec =>
    refine (S.told ?_ k).mainExecute hx hexec
    rcases hexec.cases with ⟨z, hmain, -, -⟩ | ⟨t, tok, res, -, rfl⟩
    · rw [hmain] at hstop
      exact hstop
    · exact hstop
  | exec hx hexec =>
    refine (S.told ?_ k).execute hx hexec
    rcases hexec.cases with ⟨w, talks, z, -, -, -, rfl⟩ | ⟨tok, res, -, rfl⟩
    · exact hstop
    · exact hstop

theorem Stops.step (S : h.Stops) {a : Act cfg} (hstep : h.Stepped a (.ok h')) :
    h'.Stops := ⟨S.ok.step hstep, S.told_step hstep⟩

private theorem stops_initial : (initial : Host cfg).Stops where
  ok := ok_initial
  told hstop := absurd hstop Bool.false_ne_true

theorem stops_run {acts : List (Act cfg)} (hrun : run next (.ok initial) acts = some (.ok h)) :
    h.Stops := by
  have hkept : ∀ {s t : Except Fault (Host cfg)} {a : Act cfg}, (∀ h, s = .ok h → h.Stops) →
      next s a = some t → ∀ h, t = .ok h → h.Stops := by
    rintro s t a hs hstep h rfl
    cases s with
    | error e => cases hstep
    | ok h₀ => exact (hs h₀ rfl).step (stepped_of_step hstep)
  refine invariant_of_step hkept ?_ hrun h rfl
  intro h hinitial
  rw [← Except.ok.inj hinitial]
  exact stops_initial

end Host

variable {acts : List (Host.Act cfg)} {h : Host cfg}

/-- Once the main thread stops, every other stops, or its message is on its way, or the main
thread has yet to learn that it could not be sent, at which the host ends. -/
theorem stop_reaches_every_thread (hrun : run Host.next (.ok .initial) acts = some (.ok h))
    (hstop : h.main.stopping = true) (k : Fin cfg.threads) : h.Told k :=
  (Host.stops_run hrun).told hstop k

def signalled : List (Host.Act single) :=
  exchanged ++ [.mainTake 1 true, .mainExec 0 (.code 1), .mainTake 0 true]

theorem stop_reaches_every_thread_signalled : ∃ h : Host single,
    run Host.next (.ok .initial) signalled = some (.ok h) ∧ h.main.stopping = true ∧
    h.Told single.thread := by
  have hends : ((run Host.next (.ok .initial) signalled).map fun t => match t with
      | .ok h => h.main.stopping
      | .error _ => false) = some true := by decide +kernel
  obtain ⟨t, hrun, hstop⟩ := Option.map_eq_some_iff.mp hends
  cases t with
  | error e => cases hstop
  | ok h => exact ⟨h, hrun, hstop, stop_reaches_every_thread hrun hstop single.thread⟩

end DragonsNet.Native.EchoUring
