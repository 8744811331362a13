import AsyncWorkerPool.Foundation.LeadsTo
import AsyncWorkerPool.Pool.Serve

/-!
# Deliver — what a worker that runs comes to deliver

On a run that puts nobody off for ever, every position that has been reserved is published, a worker
that sleeps meanwhile is woken, and the frame is passed to `process`; unless the worker is told to
stop or its ring is closed before that.
-/

open Foundation

namespace Awp

/-! ## What is not put off for ever -/

/-- The next access of a party, or the commit of its claim; a weak exchange that succeeds; the
return of a callback. -/
inductive Duty where
  | access (a : Agent)
  | exchange (a : Agent)
  | callback (a : Agent)

/-- Trying a weak compare-exchange. -/
def Loc.exchanges : Loc Nat Nat → Bool
  | .enqCas .. | .popTake .. => true
  | _ => false

/-- In a callback, and not in a call that the callback makes. -/
def Pc.calledBack : Pc → Bool
  | .worker (.process _ _ .out) | .worker (.onError _ _ _ .out) => true
  | _ => false

def Duty.own : Duty → Pool → Label → Prop
  | .access a, _, e => e = .step a .go ∨ e = .step a .commit
  | .exchange a, s, e => (s.thr a).loc.exchanges = true ∧ e = .step a .go
  | .callback a, s, e =>
    (s.thr a).pc.calledBack = true ∧ (e = .step a .go ∨ ∃ n, e = .step a (.rc n))

def Agent.code : Agent → Nat × Nat × Nat
  | .api n => (0, n, 0)
  | .worker i k => (1, i, k)
  | .sup => (2, 0, 0)
  | .helper k => (3, k, 0)

instance : Countable Agent :=
  Function.Injective.countable (f := Agent.code) fun a b h ↦ by
    cases a <;> cases b <;> simp_all [Agent.code]

def Duty.code : Duty → Nat × Agent
  | .access a => (0, a)
  | .exchange a => (1, a)
  | .callback a => (2, a)

instance : Countable Duty :=
  Function.Injective.countable (f := Duty.code) fun a b h ↦ by
    cases a <;> cases b <;> simp_all [Duty.code]

/-! ## Publication -/

/-- Accesses left until the call has published its position. -/
def ApiPc.toPublish (l : Loc Nat Nat) : ApiPc → Nat
  | .reserve j => j.fills.length + 7
  | .activate j _ => j.fills.length + 6
  | .fill _ _ ws => ws.length + 5
  | .claimed _ _ => 4
  | .publish _ _ =>
    match l with
    | .held _ => 3
    | .pubData .. => 2
    | _ => 1
  | _ => 0

def Thread.toPublish (t : Thread) : Nat :=
  match t.pc with
  | .api p => p.toPublish t.loc
  | _ => 0

section Publication

variable {c : Config} {s s' : Pool} {i n pos : Nat}

/-- A call that writes a cell is publishing the position that it owns. -/
theorem ApiPc.publishes {p : ApiPc} {sh pos frame : Nat} {sp : Bool} {l : Loc Nat Nat}
    (hfit : p.place.Fits sh l) (hl : l = .pubData sp frame pos ∨ l = .pubSeq sp frame pos) :
    ∃ j, p = .publish j pos ∧ sp = false := by
  cases p with
  | publish j q =>
    refine ⟨j, ?_⟩
    rcases hfit with ⟨rfl, -⟩ | ⟨-, hsp⟩
    · rcases hl with hl | hl <;> cases hl
    · rcases hl with rfl | rfl <;> cases sp <;> simp_all [RingFn.spans]
  | reserve j | waitSpace j =>
    rcases hfit with ⟨rfl, -⟩ | ⟨-, hsp⟩
    · rcases hl with hl | hl <;> cases hl
    · rcases hl with rfl | rfl <;> cases hsp
  | activate j q | fill j q ws | claimed j q =>
    rcases hl with rfl | rfl <;> cases hfit.2
  | _ => rcases hl with rfl | rfl <;> cases hfit

/-- A call that holds a position stands at one of these places. -/
theorem ApiPc.holds {p : ApiPc} {sh pos : Nat} (hfit : p.place.Fits sh (.held pos)) :
    (∃ j, p = .reserve j) ∨ (∃ j, p = .activate j pos) ∨ (∃ j ws, p = .fill j pos ws) ∨
      (∃ j, p = .claimed j pos) ∨ ∃ j, p = .publish j pos := by
  cases p with
  | reserve j => exact Or.inl ⟨j, rfl⟩
  | activate j q | fill j q ws | claimed j q =>
    obtain rfl : pos = q := by
      have hl := hfit.2
      cases hl
      rfl
    simp
  | publish j q =>
    rcases hfit with ⟨hl, -⟩ | ⟨-, hsp⟩
    · cases hl
    · simp only [RingFn.spans, decide_eq_true_eq] at hsp
      simp [hsp]
  | waitSpace j =>
    rcases hfit with ⟨hl, -⟩ | ⟨-, hsp⟩
    · cases hl
    · cases hsp
  | _ => cases hfit

/-- A step of a call that holds a position brings its publication closer, unless it is a store of a
claim's holder. -/
theorem ApiPc.hold_closer {m : Ctl} {d d' : Dat} {p p' : ApiPc} {x : Choice} {k : Cmd}
    {sh sh' : Nat} {l : Loc Nat Nat} (hfit : p.place.Fits sh (.held pos))
    (hn : p.next c m d (.held pos) x = some (d', p', k)) (hk : k.apply sh (.held pos) = some (sh', l)) :
    sh' = sh ∧ l.owns = some pos ∧ (p'.toPublish l < p.toPublish (.held pos) ∨
      (p'.toPublish l = p.toPublish (.held pos) ∧ x ≠ .go ∧ x ≠ .commit)) := by
  rcases ApiPc.holds hfit with ⟨j, rfl⟩ | ⟨j, rfl⟩ | ⟨j, ws, rfl⟩ | ⟨j, rfl⟩ | ⟨j, rfl⟩
  · cases hn
    cases hk
    refine ⟨rfl, rfl, Or.inl ?_⟩
    cases j.kind <;> simp [toPublish]
  · cases hn
    cases hk
    exact ⟨rfl, rfl, Or.inl (by simp [toPublish])⟩
  · cases ws with
    | cons f ws =>
      cases hn
      cases hk
      exact ⟨rfl, rfl, Or.inl (by simp [toPublish])⟩
    | nil =>
      cases hn
      cases hk
      refine ⟨rfl, rfl, Or.inl ?_⟩
      cases j.kind <;> simp [toPublish]
  · cases x with
    | write w =>
      cases hn
      cases hk
      exact ⟨rfl, rfl, Or.inr ⟨rfl, by simp, by simp⟩⟩
    | commit =>
      cases hn
      cases hk
      exact ⟨rfl, rfl, Or.inl (by simp [toPublish])⟩
    | _ => cases hn
  · cases hn
    cases hk
    exact ⟨rfl, rfl, Or.inl (by simp [toPublish, ringCommit])⟩

/-- The next step of a call that holds a position is possible. -/
theorem ApiPc.hold_possible (m : Ctl) (d : Dat) {p : ApiPc} {sh : Nat}
    (hfit : p.place.Fits sh (.held pos)) :
    ∃ x d' p' k sh' l, (x = .go ∨ x = .commit) ∧ p.next c m d (.held pos) x = some (d', p', k) ∧
      k.apply sh (.held pos) = some (sh', l) := by
  rcases ApiPc.holds hfit with ⟨j, rfl⟩ | ⟨j, rfl⟩ | ⟨j, ws, rfl⟩ | ⟨j, rfl⟩ | ⟨j, rfl⟩
  · exact ⟨.go, _, _, _, _, _, Or.inl rfl, rfl, rfl⟩
  · exact ⟨.go, _, _, _, _, _, Or.inl rfl, rfl, rfl⟩
  · cases ws <;> exact ⟨.go, _, _, _, _, _, Or.inl rfl, rfl, rfl⟩
  · exact ⟨.commit, _, _, _, _, _, Or.inr rfl, rfl, rfl⟩
  · exact ⟨.go, _, _, _, _, _, Or.inl rfl, rfl, rfl⟩

/-- Each step of a call that owns a position is its publication or brings that closer, but for the
stores of a claim's holder. -/
theorem Orderly.publish_closer (ho : Orderly c s) (hsh : (s.thr (.api n)).sh = i)
    (hown : (s.thr (.api n)).loc.owns = some pos) {x : Choice}
    (hst : s.step c (.step (.api n) x) = some s') :
    (s'.thr (.api n)).sh = i ∧
      (((s'.thr (.api n)).loc = .wake .load (.rc 0) ∧ ∃ f, (pos, f) ∈ (s'.ring i).pushes) ∨
        ((s'.thr (.api n)).loc.owns = some pos ∧
          ((s'.thr (.api n)).toPublish < (s.thr (.api n)).toPublish ∨
            ((s'.thr (.api n)).toPublish = (s.thr (.api n)).toPublish ∧ x ≠ .go ∧ x ≠ .commit)))) := by
  subst hsh
  obtain ⟨-, -, p, hp⟩ := ho.sound.seated.owner_api hown
  have hfit := ho.sound.seated.fits (.api n)
  rw [hp] at hfit
  rcases Pool.step_own hst with ⟨-, ⟨hact, spurious, r, l, -, hstep, rfl⟩ |
    ⟨hact, m, d, pc, k, sh, l, hnext, hk, rfl⟩⟩
  · cases hl : (s.thr (.api n)).loc with
    | held q =>
      rw [hl] at hact
      cases hact
    | pubData sp frame q =>
      rw [hl] at hown hfit hstep
      cases hown
      obtain ⟨j, rfl, rfl⟩ := ApiPc.publishes hfit (Or.inl rfl)
      cases hstep
      simp only [Pool.accessed_self]
      exact ⟨trivial, Or.inr ⟨rfl, Or.inl (by simp [Thread.toPublish, hp, hl, ApiPc.toPublish])⟩⟩
    | pubSeq sp frame q =>
      rw [hl] at hown hfit hstep
      cases hown
      obtain ⟨j, rfl, rfl⟩ := ApiPc.publishes hfit (Or.inr rfl)
      cases hstep
      rw [Pool.accessed_ring_self, Pool.accessed_self]
      exact ⟨rfl, Or.inl ⟨rfl, frame, by simp⟩⟩
    | _ =>
      rw [hl] at hown
      cases hown
  · cases hl : (s.thr (.api n)).loc with
    | held q =>
      rw [hl] at hown hfit hk
      cases hown
      simp only [Pool.next, hp, hl, Option.map_eq_some_iff, Prod.mk.injEq] at hnext
      obtain ⟨⟨d', p', k'⟩, hn, -, -, rfl, rfl⟩ := hnext
      obtain ⟨rfl, howns, hcloser⟩ := ApiPc.hold_closer hfit hn hk
      simp only [Pool.moved_self, Thread.toPublish, hp, hl]
      exact ⟨trivial, Or.inr ⟨howns, hcloser⟩⟩
    | pubData sp frame q | pubSeq sp frame q =>
      rw [hl] at hact
      cases hact
    | _ =>
      rw [hl] at hown
      cases hown

/-- A call that owns a position can go on. -/
theorem Orderly.publish_possible (ho : Orderly c s)
    (hown : (s.thr (.api n)).loc.owns = some pos) :
    Possible (Pool.step c) (Duty.own (.access (.api n))) s := by
  obtain ⟨-, -, p, hp⟩ := ho.sound.seated.owner_api hown
  have hfit := ho.sound.seated.fits (.api n)
  rw [hp] at hfit
  cases hl : (s.thr (.api n)).loc with
  | held q =>
    rw [hl] at hfit
    obtain ⟨x, d, p', k, sh, l, hx, hn, hk⟩ := ApiPc.hold_possible (c := c) s.ctl s.dat hfit
    refine ⟨.step (.api n) x, _, hx.imp (congrArg _) (congrArg _),
      Pool.api_step hp (by rw [hl]; rfl) (by rw [hl]; exact hn) (by rw [hl]; exact hk)⟩
  | pubData sp frame q | pubSeq sp frame q =>
    exact ⟨.step (.api n) .go, _, Or.inl rfl,
      @Pool.access_step c s _ _ _ false rfl (by rw [hl]; rfl) (by rw [hl]; rfl)⟩
  | _ =>
    rw [hl] at hown
    cases hown

end Publication

/-! ## Along a fair run -/

section Fair

variable {c : Config} {s s' : Pool} {π : Path (Pool.step c) s} {i n pos : Nat} {a b : Agent}

theorem Orderly.path (ho : Orderly c s) (π : Path (Pool.step c) s) (k : Nat) :
    Orderly c (π.state k) :=
  (π.steps k).invariant (fun _ _ _ h _ hst ↦ h.step hst) ho

theorem Seated.busy (hs : Seated c s) (hloc : (s.thr a).loc ≠ .idle) : (s.thr a).pc ≠ .api .idle := by
  intro hpc
  have hfit := hs.fits a
  rw [hpc] at hfit
  exact hloc hfit

theorem Loc.active_ne_idle {l : Loc Nat Nat} (h : l.active = true) : l ≠ .idle := by
  rintro rfl
  cases h

theorem Orderly.holder (ho : Orderly c s) :
    (s.ring i).waitMu = some b ↔ (s.thr b).sh = i ∧ (s.thr b).loc.locks = true := by
  refine ((ho.wake i).mutex b).trans ?_
  simp only [Pool.shard]
  by_cases hsh : (s.thr b).sh = i
  · simp [hsh]
  · simp [hsh, Loc.locks]

/-- A party inside a ring function that nothing holds up can make its next access. -/
theorem Orderly.access_possible (ho : Orderly c s) (hact : (s.thr a).loc.active = true)
    (hsh : (s.thr a).sh = i) (hmu : (s.thr a).loc.wantsMutex = true → (s.ring i).waitMu = none)
    (hcv : ∀ ticket, (s.thr a).loc.ticket = some ticket → ticket < (s.ring i).waitCv) :
    ∃ s', s.step c (.step a .go) = some s' := by
  subst hsh
  have hex : s.exists c a = true := by
    by_contra hno
    exact Loc.active_ne_idle hact (ho.unborn a (by simpa using hno))
  have hposs : ∃ r l, (s.ring (s.thr a).sh).step c.capacity.val a false (s.thr a).loc = some (r, l) :=
    Ring.step_possible hact hmu hcv
  obtain ⟨r, l, hstep⟩ := hposs
  exact ⟨_, @Pool.access_step c s _ _ _ false hex hact hstep⟩

variable (ho : Orderly c s) (hfair : ∀ x, π.Strong (Duty.own x))

include ho hfair

/-- The mutex of a ring is free again and again. -/
theorem Orderly.mutex_free (i : Nat) :
    π.LeadsTo (fun _ ↦ True) fun t ↦ (t.ring i).waitMu = none := by
  have hheld : ∀ b, π.LeadsTo (fun t ↦ (t.thr b).sh = i ∧ (t.thr b).loc.locks = true) fun t ↦
      (t.ring i).waitMu = none := by
    intro b
    refine .descend (fun t ↦ (t.thr b).loc.toUnlock) fun n ↦ ?_
    -- each access of the holder brings the release closer
    have hstep : ∀ k x, π.label k = .step b x →
        ((((π.state k).thr b).sh = i ∧ ((π.state k).thr b).loc.locks = true) ∧
          ((π.state k).thr b).loc.toUnlock = n) →
        ((((π.state (k + 1)).thr b).sh = i ∧ ((π.state (k + 1)).thr b).loc.locks = true) ∧
          ((π.state (k + 1)).thr b).loc.toUnlock < n) ∨ ((π.state (k + 1)).ring i).waitMu = none := by
      intro k x hx h
      obtain ⟨⟨hsh, hlocks⟩, hn⟩ := h
      have hst := π.next k
      rw [hx] at hst
      have hmu := (ho.path π k).holder.mpr ⟨hsh, hlocks⟩
      rcases Pool.step_own hst with ⟨-, ⟨-, spurious, r, l, -, hring, he⟩ | ⟨hact, -⟩⟩
      · have hself : ((π.state (k + 1)).ring i) = r := by
          rw [he, ← hsh, Pool.accessed_ring_self]
        rcases Ring.unlock_closer hlocks hring with hfree | ⟨hsame, hlt⟩
        · exact Or.inr (by rw [hself, hfree])
        · refine Or.inl ⟨(ho.path π (k + 1)).holder.mp ?_, ?_⟩
          · rw [hself, hsame, hsh, hmu]
          · rw [he, Pool.accessed_self]
            exact hn ▸ hlt
      · rw [(Loc.locks_moves hlocks).1] at hact
        cases hact
    refine (hfair (.access b)).leadsTo (fun k h ↦ ?_) (fun k h hown ↦ ?_) (.of_imp fun k h ↦ ?_)
    · by_cases hx : ∃ x, π.label k = .step b x
      · obtain ⟨x, hx⟩ := hx
        exact Or.inr (hstep k x hx h)
      · left
        rw [Pool.step_parked ((ho.path π k).sound.seated.busy
          (Loc.active_ne_idle (Loc.locks_moves h.1.2).1)) (not_exists.mp hx) (π.next k)]
        exact h
    · rcases hown with hx | hx <;> exact hstep k _ hx h
    · obtain ⟨hact, hmu, hcv⟩ := Loc.locks_moves h.1.2
      obtain ⟨t, ht⟩ := (ho.path π k).access_possible hact h.1.1 (by simp [hmu]) (by simp [hcv])
      exact Or.inl ⟨_, t, Or.inl rfl, ht⟩
  intro k _
  cases hmu : ((π.state k).ring i).waitMu with
  | none => exact ⟨k, le_rfl, hmu⟩
  | some b => exact hheld b k ((ho.path π k).holder.mp hmu)

/-- A party inside a ring function, and not asleep, makes its next access. -/
theorem Orderly.access_leadsTo {P Q : Pool → Prop}
    (hready : ∀ k, P (π.state k) → ((π.state k).thr a).loc.active = true ∧
      ((π.state k).thr a).sh = i ∧ ∀ ticket, ((π.state k).thr a).loc.ticket = some ticket →
        ticket < ((π.state k).ring i).waitCv)
    (hkeep : ∀ k, P (π.state k) → (∀ x, π.label k ≠ .step a x) →
      P (π.state (k + 1)) ∨ Q (π.state (k + 1)))
    (hown : ∀ k x, P (π.state k) → π.label k = .step a x → Q (π.state (k + 1))) :
    π.LeadsTo P Q := by
  have hunless : π.Unless P Q := by
    intro k hP
    by_cases hx : ∃ x, π.label k = .step a x
    · obtain ⟨x, hx⟩ := hx
      exact Or.inr (hown k x hP hx)
    · exact hkeep k hP (not_exists.mp hx)
  refine (hfair (.access a)).leadsTo hunless (fun k hP hx ↦ ?_) ?_
  · rcases hx with hx | hx <;> exact hown k _ hP hx
  · have hfree := Path.LeadsTo.meet hunless (ho.mutex_free hfair i)
    refine Path.LeadsTo.trans (.of_imp fun k hP ↦ ⟨hP, trivial⟩) (hfree.trans (.of_imp fun k h ↦ ?_))
    refine h.imp (fun ⟨hP, hmu⟩ ↦ ?_) id
    obtain ⟨hact, hsh, hcv⟩ := hready k hP
    obtain ⟨t, ht⟩ := (ho.path π k).access_possible hact hsh (fun _ ↦ hmu) hcv
    exact ⟨_, t, Or.inl rfl, ht⟩

/-- A call that owns a position publishes it. -/
theorem Orderly.published :
    π.LeadsTo (fun t ↦ (t.thr (.api n)).sh = i ∧ (t.thr (.api n)).loc.owns = some pos) fun t ↦
      (t.thr (.api n)).sh = i ∧ (t.thr (.api n)).loc = .wake .load (.rc 0) ∧
        ∃ f, (pos, f) ∈ (t.ring i).pushes := by
  refine .descend (fun t ↦ (t.thr (.api n)).toPublish) fun m ↦
    (hfair (.access (.api n))).leadsTo (fun k h ↦ ?_) (fun k h hown ↦ ?_) (.of_imp fun k h ↦ ?_)
  · obtain ⟨⟨hsh, hown⟩, hm⟩ := h
    by_cases hx : ∃ x, π.label k = .step (.api n) x
    · obtain ⟨x, hx⟩ := hx
      have hst := π.next k
      rw [hx] at hst
      obtain ⟨hsh', ⟨hl, hpush⟩ | ⟨howns, hlt | ⟨heq, -⟩⟩⟩ := (ho.path π k).publish_closer hsh hown hst
      · exact Or.inr (Or.inr ⟨hsh', hl, hpush⟩)
      · exact Or.inr (Or.inl ⟨⟨hsh', howns⟩, hm ▸ hlt⟩)
      · exact Or.inl ⟨⟨hsh', howns⟩, heq.trans hm⟩
    · left
      rw [Pool.step_parked ((ho.path π k).sound.seated.busy ?_) (not_exists.mp hx) (π.next k)]
      · exact ⟨⟨hsh, hown⟩, hm⟩
      · intro hidle
        rw [hidle] at hown
        cases hown
  · obtain ⟨⟨hsh, howns⟩, hm⟩ := h
    have hst := π.next k
    obtain ⟨x, hx, hgo⟩ : ∃ x, π.label k = .step (.api n) x ∧ (x = .go ∨ x = .commit) := by
      rcases hown with hx | hx
      · exact ⟨.go, hx, Or.inl rfl⟩
      · exact ⟨.commit, hx, Or.inr rfl⟩
    rw [hx] at hst
    obtain ⟨hsh', ⟨hl, hpush⟩ | ⟨howns', hlt | ⟨-, hne, hne'⟩⟩⟩ :=
      (ho.path π k).publish_closer hsh howns hst
    · exact Or.inr ⟨hsh', hl, hpush⟩
    · exact Or.inl ⟨⟨hsh', howns'⟩, hm ▸ hlt⟩
    · rcases hgo with rfl | rfl <;> contradiction
  · exact Or.inl ((ho.path π k).publish_possible h.1.2)

/-- Whatever has been reserved is published. -/
theorem Orderly.reserved_published :
    π.LeadsTo (fun t ↦ pos < (t.ring i).enqueuePos) fun t ↦ ∃ f, (pos, f) ∈ (t.ring i).pushes := by
  intro k hlt
  by_cases hpub : ∃ f, (pos, f) ∈ ((π.state k).ring i).pushes
  · exact ⟨k, le_rfl, hpub⟩
  · obtain ⟨n, p, -, hsh, hown⟩ := (ho.path π k).sound.reserved_by hlt (not_exists.mp hpub)
    obtain ⟨k', hk, -, -, hpush⟩ := ho.published hfair k ⟨hsh, hown⟩
    exact ⟨k', hk, hpush⟩

end Fair

/-! ## The worker -/

/-- Position `n` is due, and the thread is at distance `m` from the call of `process` for it. -/
def Pool.DueAt (i n m : Nat) (w : Agent) (s : Pool) : Prop :=
  s.Due i n ∧ (s.thr w).toCall n = m

/-- The call has been made, or the thread is closer to it than `m`. -/
def Pool.Nearer (i n m : Nat) (w : Agent) (s : Pool) : Prop :=
  (s.Due i n ∧ (s.thr w).toCall n < m) ∨ n < (started (s.ctl.w i).events).length

/-- It is there, at a place where it may linger. -/
def Pool.Lingering (i n m : Nat) (w : Agent) (s : Pool) : Prop :=
  s.DueAt i n m w ∧ (s.thr w).lingers n = true

/-- Only the mutex may hold the thread up, and it does not linger. -/
def Pool.Awake (i n m : Nat) (w : Agent) (s : Pool) : Prop :=
  s.DueAt i n m w ∧ (s.thr w).lingers n = false ∧
    ∀ ticket, (s.thr w).loc.ticket = some ticket → ticket < (s.ring i).waitCv

/-- No broadcast has been made since the thread went to sleep. -/
def Pool.Dozing (i n m ticket : Nat) (w : Agent) (s : Pool) : Prop :=
  s.DueAt i n m w ∧ (s.thr w).loc.ticket = some ticket ∧ (s.ring i).waitCv ≤ ticket

theorem Loc.taking_moves {n : Nat} {l : Loc Nat Nat} (h : l.taking n = true) :
    l.wantsMutex = false ∧ l.ticket = none := by
  cases l <;> first | exact ⟨rfl, rfl⟩ | cases h

theorem Thread.toTry_exchanges {n : Nat} {t : Thread} (h : t.loc.exchanges = true)
    (hling : t.lingers n = true) (hcall : t.toCall n = 12) : t.toTry = 0 := by
  obtain ⟨pc, sh, l⟩ := t
  cases pc with
  | worker p =>
    cases p with
    | pop => cases l <;> first | rfl | cases h
    | process | onError => cases hcall
    | _ => cases hling
  | _ => cases hling

theorem Thread.toTry_calledBack {t : Thread} (h : t.pc.calledBack = true) : t.toTry = 0 := by
  obtain ⟨pc, sh, l⟩ := t
  cases pc with
  | worker p =>
    cases p with
    | process q slot nest | onError q slot rc nest =>
      cases nest with
      | out => rfl
      | _ => cases h
    | _ => cases h
  | _ => cases h

/-- Where the thread lingers it tries an exchange, or a callback is free to return. -/
theorem Thread.lingers_try {n : Nat} {t : Thread} (h : t.lingers n = true) (htry : t.toTry = 0) :
    (t.toCall n = 12 ∧ t.pc.calledBack = false ∧ t.loc.exchanges = true) ∨
      (t.toCall n ≠ 12 ∧ t.pc.calledBack = true) := by
  obtain ⟨pc, sh, l⟩ := t
  cases pc with
  | worker p =>
    cases p with
    | pop =>
      cases l with
      | popTake sc spin pos =>
        have htaking : (Loc.popTake sc spin pos).taking n = true := h
        exact Or.inl ⟨Loc.toPop_taking htaking, rfl, rfl⟩
      | popPos | popSeq => cases htry
      | _ => cases h
    | process q slot nest | onError q slot rc nest =>
      cases nest with
      | out => exact Or.inr ⟨by simp [toCall, WorkerPc.toCall], rfl⟩
      | _ => cases htry
    | _ => cases h
  | _ => cases h

section Worker

variable {c : Config} {s : Pool} {π : Path (Pool.step c) s} {i n m : Nat}

variable (ho : Orderly c s) (hserved : ∀ k, (π.state k).Served c i)

include ho hserved

theorem Orderly.server_const (k : Nat) : (π.state k).server i = s.server i := by
  induction k with
  | zero => rw [π.start]
  | succ k ih => rw [((hserved k).others (ho.path π k) (π.next k)).1, ih]

/-- The others neither move the worker's thread nor make a callback for it. -/
theorem Orderly.server_waits {k : Nat} (hx : ∀ x, π.label k ≠ .step (s.server i) x)
    (hdue : (π.state k).Due i n) :
    (π.state (k + 1)).Due i n ∧ (π.state (k + 1)).thr (s.server i) = (π.state k).thr (s.server i) := by
  have hserver := ho.server_const hserved k
  have hevents := ((hserved k).others (ho.path π k) (π.next k)).2 (by rwa [hserver])
  obtain ⟨hlen, f, hf⟩ := hdue
  refine ⟨⟨by rw [hevents, hlen], f, Pool.step_pushes (π.next k) i hf⟩,
    Pool.step_parked ?_ hx (π.next k)⟩
  obtain ⟨p, hp, -⟩ := (hserved k).serves
  rw [← hserver, hp]
  simp

/-- A step of the worker's thread brings the call closer, except where the thread lingers. -/
theorem Orderly.server_moves {k : Nat} {x : Choice} (hx : π.label k = .step (s.server i) x)
    (h : (π.state k).DueAt i n m (s.server i)) :
    (π.state (k + 1)).Nearer i n m (s.server i) ∨
      ((π.state (k + 1)).DueAt i n m (s.server i) ∧
        ((π.state k).thr (s.server i)).lingers n = true ∧
        ((π.state (k + 1)).thr (s.server i)).lingers n = true ∧
        (((π.state (k + 1)).thr (s.server i)).toTry < ((π.state k).thr (s.server i)).toTry ∨
          ((π.state k).thr (s.server i)).toTry = 0 ∧ (x = .alt ∨ x = .nested))) := by
  obtain ⟨hdue, rfl⟩ := h
  have hst := π.next k
  rw [hx, ← ho.server_const hserved k] at hst
  have hcloser := (hserved k).call_closer (ho.path π k) hdue hst
  rw [ho.server_const hserved k] at hcloser
  obtain ⟨-, f, hf⟩ := hdue
  rcases hcloser with hcalled | ⟨hlen, hlt | ⟨heq, hling⟩⟩
  · exact Or.inl (Or.inr hcalled)
  · exact Or.inl (Or.inl ⟨⟨hlen, f, Pool.step_pushes (π.next k) i hf⟩, hlt⟩)
  · exact Or.inr ⟨⟨⟨hlen, f, Pool.step_pushes (π.next k) i hf⟩, heq⟩, hling⟩

theorem Orderly.dueAt_cases {k : Nat} (h : (π.state k).DueAt i n m (s.server i)) :
    (∃ x, π.label k = .step (s.server i) x) ∨ ((∀ x, π.label k ≠ .step (s.server i) x) ∧
      (π.state (k + 1)).DueAt i n m (s.server i) ∧
      (π.state (k + 1)).thr (s.server i) = (π.state k).thr (s.server i)) := by
  by_cases hx : ∃ x, π.label k = .step (s.server i) x
  · exact Or.inl hx
  · obtain ⟨hdue, hthr⟩ := ho.server_waits hserved (not_exists.mp hx) h.1
    exact Or.inr ⟨not_exists.mp hx, ⟨hdue, hthr ▸ h.2⟩, hthr⟩

/-- Where the thread lingers it can go on. -/
theorem Orderly.linger_possible {k : Nat} (h : (π.state k).Lingering i n m (s.server i)) :
    ∃ x t, (π.state k).step c (.step (s.server i) x) = some t ∧
      (x = .go ∨ ((π.state k).thr (s.server i)).pc.calledBack = true ∧ x = .rc 0) := by
  rw [← ho.server_const hserved k] at h ⊢
  cases hact : ((π.state k).thr ((π.state k).server i)).loc.active with
  | true =>
    obtain ⟨hpc, hsh, -⟩ := (hserved k).popping (ho.path π k) hact
    have htaking : ((π.state k).thr ((π.state k).server i)).loc.taking n = true := by
      have hling := h.2
      rwa [Thread.lingers, hpc] at hling
    obtain ⟨hmu, hcv⟩ := Loc.taking_moves htaking
    obtain ⟨t, ht⟩ := (ho.path π k).access_possible hact hsh (by simp [hmu]) (by simp [hcv])
    exact ⟨.go, t, ht, Or.inl rfl⟩
  | false =>
    obtain ⟨x, t, ht, hx⟩ := (hserved k).call_possible (ho.path π k) hact
    refine ⟨x, t, ht, hx.imp id ?_⟩
    rintro ⟨q, slot, hpc, rfl⟩
    exact ⟨by rw [hpc]; rfl, rfl⟩

variable (hfair : ∀ x, π.Strong (Duty.own x))

include hfair

/-- Where the thread lingers, it comes to the place where it tries to go on. -/
theorem Orderly.linger_tries :
    π.LeadsTo (Pool.Lingering i n m (s.server i)) fun t ↦
      (t.Lingering i n m (s.server i) ∧ (t.thr (s.server i)).toTry = 0) ∨
        t.Nearer i n m (s.server i) := by
  refine .descend (fun t ↦ (t.thr (s.server i)).toTry) fun r ↦ ?_
  by_cases hr : r = 0
  · exact .of_imp fun k h ↦ Or.inr (Or.inl ⟨h.1, h.2.trans hr⟩)
  · have hstep : ∀ k x, π.label k = .step (s.server i) x →
        (π.state k).Lingering i n m (s.server i) ∧ ((π.state k).thr (s.server i)).toTry = r →
        ((π.state (k + 1)).Lingering i n m (s.server i) ∧
          ((π.state (k + 1)).thr (s.server i)).toTry < r) ∨
        (π.state (k + 1)).Nearer i n m (s.server i) := by
      intro k x hx ⟨hling, htry⟩
      rcases ho.server_moves hserved hx hling.1 with hnear | ⟨hdue, -, hling', hlt | ⟨hzero, -⟩⟩
      · exact Or.inr hnear
      · exact Or.inl ⟨⟨hdue, hling'⟩, htry ▸ hlt⟩
      · exact absurd (htry.symm.trans hzero) hr
    refine (hfair (.access (s.server i))).leadsTo (fun k h ↦ ?_) (fun k h hown ↦ ?_)
      (.of_imp fun k h ↦ ?_)
    · rcases ho.dueAt_cases hserved h.1.1 with ⟨x, hx⟩ | ⟨-, hdue, hthr⟩
      · exact Or.inr ((hstep k x hx h).imp id Or.inr)
      · exact Or.inl ⟨⟨hdue, hthr ▸ h.1.2⟩, hthr ▸ h.2⟩
    · rcases hown with hx | hx <;> exact (hstep k _ hx h).imp id Or.inr
    · obtain ⟨x, t, ht, rfl | ⟨hback, -⟩⟩ := ho.linger_possible hserved h.1
      · exact Or.inl ⟨_, t, Or.inl rfl, ht⟩
      · exact absurd (h.2.symm.trans (Thread.toTry_calledBack hback)) hr

/-- The thread does not linger for ever: a weak exchange succeeds at last, a callback returns. -/
theorem Orderly.linger_leadsTo :
    π.LeadsTo (Pool.Lingering i n m (s.server i)) (Pool.Nearer i n m (s.server i)) := by
  have hunless : π.Unless (Pool.Lingering i n m (s.server i)) (Pool.Nearer i n m (s.server i)) := by
    intro k h
    rcases ho.dueAt_cases hserved h.1 with ⟨x, hx⟩ | ⟨-, hdue, hthr⟩
    · rcases ho.server_moves hserved hx h.1 with hnear | ⟨hdue, -, hling, -⟩
      · exact Or.inr hnear
      · exact Or.inl ⟨hdue, hling⟩
    · exact Or.inl ⟨hdue, hthr ▸ h.2⟩
  have htry : ∀ k x, (π.state k).Lingering i n m (s.server i) →
      ((π.state k).thr (s.server i)).toTry = 0 → π.label k = .step (s.server i) x →
      x ≠ .alt → x ≠ .nested → (π.state (k + 1)).Nearer i n m (s.server i) := by
    intro k x h hzero hx halt hnested
    rcases ho.server_moves hserved hx h.1 with hnear | ⟨-, -, -, hlt | ⟨-, rfl | rfl⟩⟩
    · exact hnear
    · omega
    · exact absurd rfl halt
    · exact absurd rfl hnested
  by_cases hm : m = 12
  · subst hm
    refine (hfair (.exchange (s.server i))).leadsTo hunless (fun k h hown ↦ ?_)
      ((ho.linger_tries hserved hfair).trans (.of_imp fun k h ↦ h.imp (fun ⟨hling, hzero⟩ ↦ ?_) id))
    · exact htry k .go h (Thread.toTry_exchanges hown.1 h.2 h.1.2) hown.2 (by simp) (by simp)
    · rcases Thread.lingers_try hling.2 hzero with ⟨-, hno, hex⟩ | ⟨hne, -⟩
      · obtain ⟨x, t, ht, rfl | ⟨hback, -⟩⟩ := ho.linger_possible hserved hling
        · exact ⟨_, t, ⟨hex, rfl⟩, ht⟩
        · rw [hno] at hback
          cases hback
      · exact absurd hling.1.2 hne
  · refine (hfair (.callback (s.server i))).leadsTo hunless (fun k h hown ↦ ?_)
      ((ho.linger_tries hserved hfair).trans (.of_imp fun k h ↦ h.imp (fun ⟨hling, hzero⟩ ↦ ?_) id))
    · rcases hown with ⟨hback, hx | ⟨rc, hx⟩⟩ <;>
        exact htry k _ h (Thread.toTry_calledBack hback) hx (by simp) (by simp)
    · rcases Thread.lingers_try hling.2 hzero with ⟨heq, -⟩ | ⟨-, hback⟩
      · exact absurd (hling.1.2.symm.trans heq) hm
      · obtain ⟨x, t, ht, rfl | ⟨-, rfl⟩⟩ := ho.linger_possible hserved hling
        · exact ⟨_, t, ⟨hback, Or.inl rfl⟩, ht⟩
        · exact ⟨_, t, ⟨hback, Or.inr ⟨0, rfl⟩⟩, ht⟩

/-- A thread that is not asleep comes closer to the call. -/
theorem Orderly.awake_leadsTo :
    π.LeadsTo (Pool.Awake i n m (s.server i)) (Pool.Nearer i n m (s.server i)) := by
  have hown : ∀ k x, (π.state k).Awake i n m (s.server i) → π.label k = .step (s.server i) x →
      (π.state (k + 1)).Nearer i n m (s.server i) := by
    intro k x h hx
    rcases ho.server_moves hserved hx h.1 with hnear | ⟨-, hling, -⟩
    · exact hnear
    · rw [h.2.1] at hling
      cases hling
  have hkeep : ∀ k, (π.state k).Awake i n m (s.server i) → (∀ x, π.label k ≠ .step (s.server i) x) →
      (π.state (k + 1)).Awake i n m (s.server i) ∧
        (π.state (k + 1)).thr (s.server i) = (π.state k).thr (s.server i) := by
    intro k h hx
    obtain ⟨hdue, hthr⟩ := ho.server_waits hserved hx h.1.1
    refine ⟨⟨⟨hdue, hthr ▸ h.1.2⟩, hthr ▸ h.2.1, fun ticket ht ↦ ?_⟩, hthr⟩
    exact (h.2.2 ticket (hthr ▸ ht)).trans_le (Pool.step_waitCv (π.next k) i)
  -- inside a ring function, or outside
  have hactive : π.LeadsTo (fun t ↦ t.Awake i n m (s.server i) ∧
      (t.thr (s.server i)).loc.active = true) (Pool.Nearer i n m (s.server i)) := by
    refine ho.access_leadsTo hfair (i := i) (a := s.server i) (fun k h ↦ ?_) (fun k h hx ↦ ?_)
      fun k x h hx ↦ hown k x h.1 hx
    · have hpop := (hserved k).popping (ho.path π k)
      rw [ho.server_const hserved k] at hpop
      exact ⟨h.2, (hpop h.2).2.1, h.1.2.2⟩
    · obtain ⟨hawake, hthr⟩ := hkeep k h.1 hx
      exact Or.inl ⟨hawake, hthr ▸ h.2⟩
  have hinactive : π.LeadsTo (fun t ↦ t.Awake i n m (s.server i) ∧
      (t.thr (s.server i)).loc.active = false) (Pool.Nearer i n m (s.server i)) := by
    refine (hfair (.access (s.server i))).leadsTo (fun k h ↦ ?_) (fun k h hx ↦ ?_) (.of_imp fun k h ↦ ?_)
    · by_cases hx : ∃ x, π.label k = .step (s.server i) x
      · obtain ⟨x, hx⟩ := hx
        exact Or.inr (hown k x h.1 hx)
      · obtain ⟨hawake, hthr⟩ := hkeep k h.1 (not_exists.mp hx)
        exact Or.inl ⟨hawake, hthr ▸ h.2⟩
    · rcases hx with hx | hx <;> exact hown k _ h.1 hx
    · have hposs := (hserved k).call_possible (ho.path π k)
      rw [ho.server_const hserved k] at hposs
      obtain ⟨x, t, ht, rfl | ⟨q, slot, hpc, -⟩⟩ := hposs h.2
      · exact Or.inl ⟨_, t, Or.inl rfl, ht⟩
      · have hling := h.1.2.1
        rw [Thread.lingers, hpc] at hling
        cases hling
  intro k h
  cases hact : ((π.state k).thr (s.server i)).loc.active with
  | true => exact hactive k ⟨h, hact⟩
  | false => exact hinactive k ⟨h, hact⟩

end Worker

/-! ## Waking the worker -/

section Waking

variable {c : Config} {s : Pool} {π : Path (Pool.step c) s} {i n m ticket : Nat} {b : Agent}

theorem Loc.ticket_wait {l : Loc Nat Nat} (h : l.ticket = some ticket) :
    ∃ q k, l = .wait q (.blocked ticket) k := by
  cases l with
  | wait q w k =>
    cases w with
    | blocked t =>
      cases h
      exact ⟨q, k, rfl⟩
    | _ => cases h
  | _ => cases h

/-- On the way to a broadcast the party owns a position, or is inside `awp_ring_wake_if_needed`. -/
theorem Loc.announces_pushed {l : Loc Nat Nat} (h : l.announces .pushed = true) :
    (∃ pos, l.owns = some pos) ∨ ∃ w v, l = .wake w v := by
  cases l with
  | held pos | pubData sp f pos | pubSeq sp f pos => exact Or.inl ⟨pos, rfl⟩
  | wake w v => exact Or.inr ⟨w, v, rfl⟩
  | _ => cases h

theorem Ring.wake_step_owns {cap : Nat} {a : Agent} {spurious : Bool} {r r' : Ring Nat Agent Nat}
    {w : Wake} {v : Ret Nat Nat} {l' : Loc Nat Nat}
    (h : r.step cap a spurious (.wake w v) = some (r', l')) : l'.owns = none := by
  cases w <;> simp only [Ring.step, Ring.wakeStep] at h <;> grind [Loc.owns]

variable (ho : Orderly c s) (hserved : ∀ k, (π.state k).Served c i)

include ho hserved

/-- A thread that sleeps while a frame is due waits for data, and another party is on the way to wake it. -/
theorem Orderly.dozing_asleep {k : Nat} (h : (π.state k).Dozing i n m ticket (s.server i)) :
    Asleep ((π.state k).shard i) (s.server i) .data ticket ∧
      ((π.state k).thr (s.server i)).lingers n = false ∧
      ∃ b, ((π.state k).thr b).sh = i ∧ ((π.state k).thr b).loc.announces .pushed = true := by
  obtain ⟨⟨hdue, -⟩, hticket, hcv⟩ := h
  obtain ⟨q, r, hl⟩ := Loc.ticket_wait hticket
  have hpop := (hserved k).popping (ho.path π k)
  have hsought := (hserved k).sought (ho.path π k) hdue
  rw [ho.server_const hserved k] at hpop hsought
  obtain ⟨hpc, hsh, hsp, -⟩ := hpop (by rw [hl]; rfl)
  obtain ⟨-, hdeq, hlt⟩ := hsought hpc (by rw [hl]; rfl)
  have hwake := (ho.path π k).wake i
  have hloc : ((π.state k).shard i).loc (s.server i) = .wait q (.blocked ticket) r :=
    (if_pos hsh).trans hl
  obtain rfl : q = .data := by
    rw [hl] at hsp
    cases q with
    | data => rfl
    | space => cases r <;> cases hsp
  have hasleep : Asleep ((π.state k).shard i) (s.server i) .data ticket := by
    have hok := hwake.waits _ _ _ _ hloc
    exact ⟨⟨r, hloc⟩, Nat.le_antisymm hok.1 hcv⟩
  refine ⟨hasleep, ?_, ?_⟩
  · rw [Thread.lingers, hpc, hl]
    rfl
  · have hdepth : WaitFor.mustWait c.capacity.val .data
        (((π.state k).shard i).ring.depth c.capacity.val) = false := by
      have hpos := c.capacity.pos
      simp only [WaitFor.mustWait, Ring.depth, depth_nat, Pool.shard, hdeq, beq_eq_false_iff_ne]
      split <;> omega
    obtain ⟨b, ch, -, hfalse, hann⟩ := hwake.announcer hasleep (Or.inr hdepth)
    have hch : ch = .pushed := by
      rcases hfalse with ⟨-, hclosed⟩ | ⟨hch, -⟩
      · have hopen := (hserved k).isOpen
        rw [show ((π.state k).shard i).ring = (π.state k).ring i from rfl, hopen] at hclosed
        cases hclosed
      · exact hch
    subst hch
    refine ⟨b, ?_⟩
    simp only [Pool.shard] at hann
    split at hann
    · exact ⟨‹_›, hann⟩
    · cases hann

/-- The thread sleeps on until a broadcast, or a spurious wake-up, gets it going. -/
theorem Orderly.dozing_unless : π.Unless (Pool.Dozing i n m ticket (s.server i)) fun t ↦
    t.Awake i n m (s.server i) ∨ t.Nearer i n m (s.server i) := by
  intro k h
  obtain ⟨-, hling, -⟩ := ho.dozing_asleep hserved h
  rcases ho.dueAt_cases hserved h.1 with ⟨x, hx⟩ | ⟨-, hdue, hthr⟩
  · rcases ho.server_moves hserved hx h.1 with hnear | ⟨-, hlingers, -⟩
    · exact Or.inr (Or.inr hnear)
    · rw [hling] at hlingers
      cases hlingers
  · by_cases hcv : ((π.state (k + 1)).ring i).waitCv ≤ ticket
    · exact Or.inl ⟨hdue, hthr ▸ h.2.1, hcv⟩
    · refine Or.inr (Or.inl ⟨hdue, hthr ▸ hling, fun t ht ↦ ?_⟩)
      rw [hthr, h.2.1] at ht
      cases ht
      exact not_le.mp hcv

variable (hfair : ∀ x, π.Strong (Duty.own x))

include hfair

/-- Whoever is inside `awp_ring_wake_if_needed` for a push wakes the thread. -/
theorem Orderly.wakes : π.LeadsTo (fun t ↦ t.Dozing i n m ticket (s.server i) ∧ (t.thr b).sh = i ∧
      (t.thr b).loc.announces .pushed = true ∧ ∃ w v, (t.thr b).loc = .wake w v)
    fun t ↦ t.Awake i n m (s.server i) ∨ t.Nearer i n m (s.server i) := by
  refine .descend (fun t ↦ (t.thr b).loc.toBroadcast) fun r ↦ ho.access_leadsTo hfair (i := i) (a := b)
    (fun k h ↦ ?_) (fun k h hx ↦ ?_) fun k x h hx ↦ ?_
  · obtain ⟨⟨-, hsh, -, w, v, hl⟩, -⟩ := h
    rw [hl]
    exact ⟨rfl, hsh, fun t ht ↦ by cases ht⟩
  · obtain ⟨⟨hdoze, hsh, hann, w, v, hl⟩, hr⟩ := h
    rcases ho.dozing_unless hserved k hdoze with hdoze' | hdone
    · left
      rw [Pool.step_parked ((ho.path π k).sound.seated.busy (by rw [hl]; simp)) hx (π.next k)]
      exact ⟨⟨hdoze', hsh, hann, w, v, hl⟩, hr⟩
    · exact Or.inr (Or.inr hdone)
  · obtain ⟨⟨hdoze, hsh, hann, w, v, hl⟩, hr⟩ := h
    rcases ho.dozing_unless hserved k hdoze with hdoze' | hdone
    · have hst := π.next k
      rw [hx] at hst
      obtain ⟨hasleep, -⟩ := ho.dozing_asleep hserved hdoze
      rcases Pool.step_own hst with ⟨-, ⟨-, spurious, r', l', -, hring, he⟩ | ⟨hact, -⟩⟩
      · have hring' : (π.state (k + 1)).ring i = r' := by rw [he, ← hsh, Pool.accessed_ring_self]
        rcases Ring.step_announces hring hann with ⟨hann', hlt⟩ | ⟨-, hmore⟩ | hzero
        · refine Or.inl ⟨⟨hdoze', ?_⟩, ?_⟩ <;> rw [he, Pool.accessed_self]
          · refine ⟨hsh, hann', (Loc.announces_pushed hann').resolve_left fun ⟨pos, hpos⟩ ↦ ?_⟩
            rw [hl] at hring
            rw [Ring.wake_step_owns hring] at hpos
            cases hpos
          · exact hr ▸ hlt
        · -- the broadcast
          have hle := hdoze'.2.2
          have hticket : ticket = ((π.state k).ring i).waitCv := hasleep.2
          rw [hring', hmore, hsh] at hle
          omega
        · have hpos := ((ho.path π k).wake i).waiters_pos hasleep
          rw [hsh] at hzero
          exact absurd hpos (not_lt.mpr hzero)
      · rw [hl] at hact
        cases hact
    · exact Or.inr hdone

/-- A thread that sleeps while a frame is due is woken. -/
theorem Orderly.dozing_leadsTo : π.LeadsTo (Pool.Dozing i n m ticket (s.server i))
    fun t ↦ t.Awake i n m (s.server i) ∨ t.Nearer i n m (s.server i) := by
  intro k h
  obtain ⟨-, -, b, hsh, hann⟩ := ho.dozing_asleep hserved h
  rcases Loc.announces_pushed hann with ⟨pos, hown⟩ | hwake
  · -- a call that is still to publish
    obtain ⟨n', rfl, -⟩ := (ho.path π k).sound.seated.owner_api hown
    obtain ⟨k', hk, ⟨hdoze, hsh', hl, -⟩ | hdone⟩ :=
      (Path.LeadsTo.meet (ho.dozing_unless hserved) (ho.published hfair)) k ⟨h, hsh, hown⟩
    · obtain ⟨k'', hk', hdone⟩ := ho.wakes hserved hfair k'
        ⟨hdoze, hsh', by rw [hl]; rfl, _, _, hl⟩
      exact ⟨k'', hk.trans hk', hdone⟩
    · exact ⟨k', hk, hdone⟩
  · exact ho.wakes hserved hfair k ⟨h, hsh, hann, hwake⟩

/-- A frame that is due is passed to `process`. -/
theorem Orderly.due_called : π.LeadsTo (fun t ↦ t.Due i n) fun t ↦
    n < (started (t.ctl.w i).events).length := by
  refine .descend (fun t ↦ (t.thr (s.server i)).toCall n) fun m k h ↦ ?_
  have hat : (π.state k).DueAt i n m (s.server i) := h
  have hnearer : π.LeadsTo (Pool.Awake i n m (s.server i)) (Pool.Nearer i n m (s.server i)) :=
    ho.awake_leadsTo hserved hfair
  cases hling : ((π.state k).thr (s.server i)).lingers n with
  | true => exact ho.linger_leadsTo hserved hfair k ⟨hat, hling⟩
  | false =>
    cases hticket : ((π.state k).thr (s.server i)).loc.ticket with
    | none => exact hnearer k ⟨hat, hling, by simp [hticket]⟩
    | some ticket =>
      by_cases hcv : ticket < ((π.state k).ring i).waitCv
      · exact hnearer k ⟨hat, hling, by simpa [hticket] using hcv⟩
      · exact (Path.LeadsTo.cancel (ho.dozing_leadsTo hserved hfair) hnearer) k
          ⟨hat, hticket, not_lt.mp hcv⟩

end Waking

theorem Pool.path_pushes {c : Config} {s : Pool} (π : Path (Pool.step c) s) {k k' : Nat}
    (hk : k ≤ k') (i : Nat) : ((π.state k).ring i).pushes ⊆ ((π.state k').ring i).pushes := by
  induction k', hk using Nat.le_induction with
  | base => exact List.Subset.refl _
  | succ k' hk ih => exact List.Subset.trans ih (Pool.step_pushes (π.next k') i)

section Delivery

variable {c : Config} {s : Pool} {π : Path (Pool.step c) s} {i q : Nat} (ho : Orderly c s)
  (hfair : ∀ x, π.Strong (Duty.own x))

include ho hfair

/-- All positions up to one that has been reserved are published. -/
theorem Orderly.all_published (hq : q < (s.ring i).enqueuePos) :
    ∃ k, ∀ p ≤ q, ∃ f, (p, f) ∈ ((π.state k).ring i).pushes := by
  have hpub : ∀ p ≤ q, ∃ k, ∃ f, (p, f) ∈ ((π.state k).ring i).pushes := by
    intro p hp
    have hlead : π.LeadsTo (fun t ↦ p < (t.ring i).enqueuePos) _ := ho.reserved_published hfair
    obtain ⟨k, -, hf⟩ := hlead 0 (by
      rw [π.start]
      exact lt_of_le_of_lt hp hq)
    exact ⟨k, hf⟩
  clear hq
  induction q with
  | zero =>
    obtain ⟨k, hf⟩ := hpub 0 le_rfl
    refine ⟨k, fun p hp ↦ ?_⟩
    rwa [Nat.le_zero.mp hp]
  | succ q ih =>
    obtain ⟨k, hall⟩ := ih fun p hp ↦ hpub p (Nat.le_succ_of_le hp)
    obtain ⟨k', f, hf⟩ := hpub (q + 1) le_rfl
    refine ⟨max k k', fun p hp ↦ ?_⟩
    rcases Nat.le_succ_iff.mp hp with hle | rfl
    · exact (hall p hle).imp fun _ hf ↦ Pool.path_pushes π (le_max_left k k') i hf
    · exact ⟨f, Pool.path_pushes π (le_max_right k k') i hf⟩

/-- What has been published up to `q` is passed to `process`. -/
theorem Orderly.all_called (hserved : ∀ k, (π.state k).Served c i) {k : Nat}
    (hall : ∀ p ≤ q, ∃ f, (p, f) ∈ ((π.state k).ring i).pushes) :
    ∃ k', q < (started ((π.state k').ctl.w i).events).length := by
  induction hn : q + 1 - (started ((π.state k).ctl.w i).events).length using
    Nat.strong_induction_on generalizing k with
  | h n ih =>
    by_cases hlt : q < (started ((π.state k).ctl.w i).events).length
    · exact ⟨k, hlt⟩
    · obtain ⟨k', hk, hcalled⟩ := ho.due_called hserved hfair k ⟨rfl, hall _ (not_lt.mp hlt)⟩
      exact ih _ (by omega) (fun p hp ↦ (hall p hp).imp fun _ hf ↦ Pool.path_pushes π hk i hf) rfl

end Delivery

/-- **A shard that is served delivers.**  Whatever position has been reserved, `process` is called
for it on every run that puts nobody off for ever, unless the worker is told to stop or its ring is
closed. -/
theorem Orderly.delivers {c : Config} {s : Pool} {i q : Nat} (ho : Orderly c s) (h : s.Served c i)
    (hq : q < (s.ring i).enqueuePos) : Inevitable (Pool.step c) Duty.own s fun t ↦
      q ∈ started (t.ctl.w i).events ∨ (t.ctl.w i).stop = true ∨ (t.ring i).closed = true := by
  intro π hfair
  by_contra hno
  push Not at hno
  have hserved : ∀ k, (π.state k).Served c i := by
    intro k
    induction k with
    | zero => rwa [π.start]
    | succ k ih =>
      exact ih.step (ho.path π k) (π.next k) (by simpa using (hno (k + 1)).2.1)
        (by simpa using (hno (k + 1)).2.2)
  obtain ⟨k, hall⟩ := ho.all_published hfair hq
  obtain ⟨k', hlt⟩ := ho.all_called hfair hserved hall
  obtain ⟨ph, hl⟩ := (ho.path π k').ledger i
  refine (hno k').1 ?_
  rw [hl.serial.started_eq, List.length_range] at hlt
  rw [hl.serial.started_eq]
  exact List.mem_range.mpr hlt

end Awp
