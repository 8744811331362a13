import AsyncWorkerPool.Pool.Create

/-!
# Act — the ways in which the pool can move

`Pool.Act` inverts a step once and for all: the clock moves, a call begins, a party makes an access
in a ring, or a party moves in its own program.  A shutdown that `awp_pool_destroy` runs moves like
one called by itself; `Wrap` is the place where it runs.
-/

open Foundation

namespace Awp

/-- A shutdown call, or the one that `awp_pool_destroy` makes. -/
inductive Wrap : (ShutPc → Pc) → Prop where
  | shut : Wrap .shut
  | destroy : Wrap fun q ↦ .destroy (.shut q)

/-- Party `a` moves in its own program. -/
def Pool.moved (s : Pool) (m : Ctl) (d : Dat) (a : Agent) (pc : Pc) (sh : Nat) (l : Loc Nat Nat) :
    Pool :=
  { s with ctl := m, dat := d, thr := Function.update s.thr a ⟨pc, sh, l⟩ }

/-- Party `a` makes an access in its ring. -/
def Pool.accessed (c : Config) (s : Pool) (a : Agent) (r : Ring Nat Agent Nat) (l : Loc Nat Nat) :
    Pool :=
  { s with
    dat := s.dat.notePublish c (s.thr a).sh (s.thr a).loc
    ring := Function.update s.ring (s.thr a).sh r
    thr := Function.update s.thr a { s.thr a with loc := l } }

inductive Pool.Act (c : Config) (s : Pool) : Label → Pool → Prop where
  | tick (t : Nat) : Act c s (.tick t) { s with ctl := { s.ctl with clock := s.ctl.clock + t } }
  | call (n : Nat) (pool : Bool) (f : ApiCall) (hidle : (s.thr (.api n)).pc = .api .idle) :
    Act c s (.call n pool f) (s.moved s.ctl s.dat (.api n) (.api (f.start c pool))
      (s.thr (.api n)).sh (s.thr (.api n)).loc)
  | shutdown (n : Nat) (tls : Bool) (hidle : (s.thr (.api n)).pc = .api .idle) :
    Act c s (.shutdown n tls) (s.moved s.ctl s.dat (.api n)
      (.shut (if tls then .done edeadlk else .start)) (s.thr (.api n)).sh (s.thr (.api n)).loc)
  | destroyed (n : Nat) (hidle : (s.thr (.api n)).pc = .api .idle) :
    Act c s (.destroy n) (s.moved s.ctl s.dat (.api n) (.destroy .cas) (s.thr (.api n)).sh
      (s.thr (.api n)).loc)
  | access (a : Agent) (x : Choice) (spurious : Bool) (r : Ring Nat Agent Nat) (l : Loc Nat Nat)
      (hact : (s.thr a).loc.active = true)
      (hstep : (s.ring (s.thr a).sh).step c.capacity.val a spurious (s.thr a).loc = some (r, l)) :
    Act c s (.step a x) (s.accessed c a r l)
  | api (n : Nat) (x : Choice) {p p' : ApiPc} {d : Dat} {k : Cmd} {sh : Nat} {l : Loc Nat Nat}
      (hp : (s.thr (.api n)).pc = .api p)
      (hn : p.next c s.ctl s.dat (s.thr (.api n)).loc x = some (d, p', k))
      (hk : k.apply (s.thr (.api n)).sh (s.thr (.api n)).loc = some (sh, l)) :
    Act c s (.step (.api n) x) (s.moved s.ctl d (.api n) (.api p') sh l)
  | shut (n : Nat) (x : Choice) {wrap : ShutPc → Pc} (hw : Wrap wrap) {q q' : ShutPc} {m : Ctl}
      {k : Cmd} {sh : Nat} {l : Loc Nat Nat} (hp : (s.thr (.api n)).pc = wrap q)
      (hn : q.next c s.ctl s.dat.activeSubmits (.api n) (s.thr (.api n)).loc x = some (m, q', k))
      (hk : k.apply (s.thr (.api n)).sh (s.thr (.api n)).loc = some (sh, l)) :
    Act c s (.step (.api n) x) (s.moved m s.dat (.api n) (wrap q') sh l)
  | destroy (n : Nat) (x : Choice) {p p' : DestroyPc} {m : Ctl} {k : Cmd} {sh : Nat}
      {l : Loc Nat Nat} (hp : (s.thr (.api n)).pc = .destroy p)
      (hn : p.next c s.ctl s.dat (.api n) (s.thr (.api n)).loc x = some (m, p', k))
      (hfrom : ∀ q, p = .shut q → ∃ rc, q = .done rc) (hto : ∀ q, p' = .shut q → q = .start)
      (hframe : s.ctl.DestroyFrame m)
      (hk : k.apply (s.thr (.api n)).sh (s.thr (.api n)).loc = some (sh, l)) :
    Act c s (.step (.api n) x) (s.moved m s.dat (.api n) (.destroy p') sh l)
  | worker (i j : Nat) (x : Choice) {p p' : WorkerPc} {m : Ctl} {k : Cmd} {sh : Nat}
      {l : Loc Nat Nat} (hi : i < c.nWorkers) (hj : j < (s.ctl.w i).spawned)
      (hp : (s.thr (.worker i j)).pc = .worker p)
      (hn : p.next c s.ctl i (s.thr (.worker i j)).loc x = some (m, p', k))
      (hk : k.apply (s.thr (.worker i j)).sh (s.thr (.worker i j)).loc = some (sh, l)) :
    Act c s (.step (.worker i j) x) (s.moved m s.dat (.worker i j) (.worker p') sh l)
  | sup (x : Choice) {p p' : SupPc} {m : Ctl} {k : Cmd} {sh : Nat} {l : Loc Nat Nat}
      (he : c.enableSupervisor = true) (hp : (s.thr .sup).pc = .sup p)
      (hn : p.next c s.ctl s.ended (s.thr .sup).loc x = some (m, p', k))
      (hk : k.apply (s.thr .sup).sh (s.thr .sup).loc = some (sh, l)) :
    Act c s (.step .sup x) (s.moved m s.dat .sup (.sup p') sh l)
  | helper (h : Nat) (x : Choice) {p p' : HelperPc} {m : Ctl} {k : Cmd} {sh : Nat}
      {l : Loc Nat Nat} (hh : h < s.ctl.helpers) (hp : (s.thr (.helper h)).pc = .helper p)
      (hn : p.next s.ctl s.ended h x = some (m, p', k))
      (hk : k.apply (s.thr (.helper h)).sh (s.thr (.helper h)).loc = some (sh, l)) :
    Act c s (.step (.helper h) x) (s.moved m s.dat (.helper h) (.helper p') sh l)

/-! Only shutdown writes the lifecycle. -/

section Lifecycle

variable {c : Config} {m m' : Ctl} {l : Loc Nat Nat} {x : Choice} {k : Cmd} {ended : Agent → Bool}

theorem Ctl.DestroyFrame.lifecycle (h : m.DestroyFrame m') : m'.lifecycle = m.lifecycle := by
  have hf := congrArg Ctl.lifecycle h
  exact hf

theorem WorkerPc.next_lifecycle {i : Nat} {p p' : WorkerPc}
    (hn : p.next c m i l x = some (m', p', k)) : m'.lifecycle = m.lifecycle := by
  have h := congrArg Ctl.lifecycle (WorkerPc.next_frame hn).1.1
  exact h

theorem SupPc.next_lifecycle {p p' : SupPc} (hn : p.next c m ended l x = some (m', p', k)) :
    m'.lifecycle = m.lifecycle := by
  have h := congrArg Ctl.lifecycle (SupPc.next_frame hn).1
  exact h

theorem HelperPc.next_lifecycle {j : Nat} {p p' : HelperPc}
    (hn : p.next m ended j x = some (m', p', k)) : m'.lifecycle = m.lifecycle := by
  have h := congrArg Ctl.lifecycle (HelperPc.next_frame hn)
  exact h

end Lifecycle

section Act

variable {c : Config} {s s' : Pool} {a b : Agent} {m : Ctl} {d : Dat} {pc : Pc} {sh : Nat}
  {l : Loc Nat Nat} {r : Ring Nat Agent Nat}

@[simp] theorem Pool.moved_ctl : (s.moved m d a pc sh l).ctl = m := rfl

@[simp] theorem Pool.moved_dat : (s.moved m d a pc sh l).dat = d := rfl

@[simp] theorem Pool.moved_ring : (s.moved m d a pc sh l).ring = s.ring := rfl

@[simp] theorem Pool.moved_self : (s.moved m d a pc sh l).thr a = ⟨pc, sh, l⟩ :=
  Function.update_self _ _ _

theorem Pool.moved_of_ne (h : b ≠ a) : (s.moved m d a pc sh l).thr b = s.thr b :=
  Function.update_of_ne h _ _

@[simp] theorem Pool.accessed_ctl : (s.accessed c a r l).ctl = s.ctl := rfl

@[simp] theorem Pool.accessed_self :
    (s.accessed c a r l).thr a = ⟨(s.thr a).pc, (s.thr a).sh, l⟩ := Function.update_self _ _ _

theorem Pool.accessed_of_ne (h : b ≠ a) : (s.accessed c a r l).thr b = s.thr b :=
  Function.update_of_ne h _ _

/-- An access to a ring moves nobody in its own program. -/
@[simp] theorem Pool.accessed_pc : ((s.accessed c a r l).thr b).pc = (s.thr b).pc := by
  by_cases hb : b = a
  · subst hb
    rw [Pool.accessed_self]
  · rw [Pool.accessed_of_ne hb]

@[simp] theorem Pool.accessed_ring_self : (s.accessed c a r l).ring (s.thr a).sh = r :=
  Function.update_self _ _ _

theorem Pool.accessed_ring_of_ne {i : Nat} (h : i ≠ (s.thr a).sh) :
    (s.accessed c a r l).ring i = s.ring i := Function.update_of_ne h _ _

/-- A shutdown call stands where its wrapping says. -/
theorem Wrap.shut? {wrap : ShutPc → Pc} (h : Wrap wrap) (q : ShutPc) : (wrap q).shut? = some q := by
  cases h <;> rfl

theorem Wrap.place {wrap : ShutPc → Pc} (h : Wrap wrap) (q : ShutPc) :
    (wrap q).place c a = q.place c := by
  cases h <;> rfl

/-- Every step is one of these. -/
theorem Pool.step_act (hs : Seated c s) {e : Label} (h : s.step c e = some s') : s.Act c e s' := by
  rcases Pool.step_cases h with ⟨t, rfl, rfl⟩ | ⟨n, pc, hpc, hstart, rfl⟩ |
    ⟨a, x, spurious, r, l, rfl, -, hact, -, hstep, rfl⟩ |
    ⟨a, x, m, d, pc, k, sh, l, rfl, hex, hact, hnext, hk, rfl⟩
  · exact .tick t
  · rcases hstart with ⟨pool, f, rfl, rfl⟩ | ⟨tls, rfl, rfl⟩ | ⟨rfl, rfl⟩
    · exact .call n pool f hpc
    · exact .shutdown n tls hpc
    · exact .destroyed n hpc
  · exact .access a x spurious r l hact hstep
  · rcases Pool.next_cases (hs.runs a) hnext with
      ⟨n, p, p', rfl, hp, rfl, rfl, hn⟩ | ⟨n, p, p', rfl, hp, rfl, rfl, hn⟩ |
      ⟨n, p, p', rfl, hp, rfl, rfl, hn⟩ | ⟨i, j, p, p', rfl, hp, rfl, rfl, hn⟩ |
      ⟨p, p', rfl, hp, rfl, rfl, hn⟩ | ⟨j, p, p', rfl, hp, rfl, rfl, hn⟩
    · exact .api n x hp hn hk
    · exact .shut n x .shut hp hn hk
    · rcases DestroyPc.next_frame hn with ⟨q, q', rfl, rfl, hq⟩ | ⟨hframe, hfrom, hto⟩
      · exact .shut n x .destroy hp hq hk
      · exact .destroy n x hp hn hfrom hto hframe hk
    · simp only [Pool.exists, decide_eq_true_eq] at hex
      exact .worker i j x hex.1 hex.2 hp hn hk
    · exact .sup x hex hp hn hk
    · exact .helper j x (of_decide_eq_true hex) hp hn hk

theorem Pool.step_exists {a : Agent} {x : Choice} (hst : s.step c (.step a x) = some s') :
    s.exists c a = true := by
  simp only [Pool.step] at hst
  split at hst
  · assumption
  · cases hst

/-- An access that the ring allows is a step of the pool. -/
theorem Pool.access_step {spurious : Bool} (hex : s.exists c a = true)
    (hact : (s.thr a).loc.active = true)
    (hstep : (s.ring (s.thr a).sh).step c.capacity.val a spurious (s.thr a).loc = some (r, l)) :
    s.step c (.step a (if spurious then .alt else .go)) = some (s.accessed c a r l) := by
  have hchoice : (if spurious then Choice.alt else .go).spurious = some spurious := by
    cases spurious <;> rfl
  simp only [Pool.step, hex, if_true, hact, Pool.access, hchoice, Option.bind_some, hstep,
    Option.map_some, Pool.accessed]

/-- So is a step of a call in its own program. -/
theorem Pool.api_step {n : Nat} {x : Choice} {p p' : ApiPc} {k : Cmd}
    (hp : (s.thr (.api n)).pc = .api p) (hact : (s.thr (.api n)).loc.active = false)
    (hn : p.next c s.ctl s.dat (s.thr (.api n)).loc x = some (d, p', k))
    (hk : k.apply (s.thr (.api n)).sh (s.thr (.api n)).loc = some (sh, l)) :
    s.step c (.step (.api n) x) = some (s.moved s.ctl d (.api n) (.api p') sh l) := by
  have hadv : s.next c (.api n) x = some (s.ctl, d, .api p', k) := by
    simp only [Pool.next, hp, hn, Option.map_some]
  simp only [Pool.step, Pool.exists, if_true, hact, Bool.false_eq_true, if_false, Pool.advance, hadv,
    Option.bind_some, hk, Option.map_some, Pool.moved]

end Act

end Awp
