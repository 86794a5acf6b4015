import TokenGrammar.Proofs.Wrapping

/-!
# Actions that end alike

Two different programs are compared by what they lead to: `Action.Leads` forgets the events
of a run, and `Action.EndsAlike` says that from contexts that `pre` relates, what either
action leads to the other leads to as well, up to `post`. It composes along `bind`.

Where depth has no limit, a region may be traced on one side alone, and a parser that both
sides call may be at any depth (`Grammar.parse_endsAlike`).
-/

namespace TokenGrammar

variable {V : Type} [TokenValue V] {rules : Rules V}

-- ---------------------------------------------------------------------------
-- What an action leads to
-- ---------------------------------------------------------------------------

namespace Action

/-- Whether an action run from `ctx` ends with `x` and leaves `ctx'`. -/
def Leads (rules : Rules V) (a : Action (Parser V) V α) (ctx : Context V) (x : α)
    (ctx' : Context V) : Prop :=
  ∃ es, Runs rules a ctx x ctx' es

variable {ctx ctx' : Context V}

theorem leads_iff_exec {a : Action (Parser V) V α} :
    a.Leads rules ctx x ctx' ↔ ∃ n, a.exec (Parser.run rules n) ctx = some (x, ctx') := by
  constructor
  · rintro ⟨es, h⟩
    exact h.exec
  · rintro ⟨n, hn⟩
    exact runs_of_exec (fun _ _ _ _ _ => runs_of_run) a hn

theorem Leads.unique {a : Action (Parser V) V α} (h : a.Leads rules ctx x ctx₁)
    (h' : a.Leads rules ctx y ctx₂) : x = y ∧ ctx₁ = ctx₂ := by
  obtain ⟨m, hm⟩ := leads_iff_exec.1 h
  obtain ⟨n, hn⟩ := leads_iff_exec.1 h'
  obtain ⟨k, hk, hk'⟩ := exec_max rules hm hn
  rw [hk] at hk'
  exact Prod.mk.inj (Option.some.inj hk')

@[simp] theorem leads_done : (Action.done x : Action (Parser V) V α).Leads rules ctx y ctx' ↔
    y = x ∧ ctx' = ctx := by
  simp [Leads]

theorem leads_bind_iff {a : Action (Parser V) V α} {f : α → Action (Parser V) V β} :
    (a.bind f).Leads rules ctx y ctx' ↔
      ∃ x ctx₁, a.Leads rules ctx x ctx₁ ∧ (f x).Leads rules ctx₁ y ctx' := by
  constructor
  · rintro ⟨es, h⟩
    obtain ⟨x, ctx₁, _, _, hfirst, hsecond, -⟩ := h.of_bind
    exact ⟨x, ctx₁, ⟨_, hfirst⟩, _, hsecond⟩
  · rintro ⟨x, ctx₁, ⟨_, hfirst⟩, _, hsecond⟩
    exact ⟨_, hfirst.bind hsecond⟩

theorem leads_call_iff {next : Outcome V → Action (Parser V) V α} :
    (Action.call p input next).Leads rules ctx x ctx' ↔
      ∃ o ctx₁, (p.body rules input).Leads rules ctx o ctx₁ ∧
        (next o).Leads rules ctx₁ x ctx' := by
  constructor
  · rintro ⟨es, h⟩
    obtain ⟨o, ctx₁, nested, _, hparse, hrest, -⟩ := h.of_call
    exact ⟨o, ctx₁, ⟨nested, hparse⟩, _, hrest⟩
  · rintro ⟨o, ctx₁, ⟨nested, hparse⟩, _, hrest⟩
    exact ⟨_, .call hparse hrest⟩

theorem leads_parse_iff {p : Parser V} : (Action.parse p input).Leads rules ctx o ctx' ↔
    (p.body rules input).Leads rules ctx o ctx' := by
  rw [Action.parse, leads_call_iff]
  constructor
  · rintro ⟨_, _, h, hdone⟩
    obtain ⟨rfl, rfl⟩ := leads_done.1 hdone
    exact h
  · intro h
    exact ⟨o, ctx', h, leads_done.2 ⟨rfl, rfl⟩⟩

@[simp] theorem leads_logFailure {failure : Failure} {next : Action (Parser V) V α} :
    (Action.logFailure failure fallback next).Leads rules ctx x ctx' ↔
      next.Leads rules (ctx.logFailure failure fallback) x ctx' := by
  constructor
  · rintro ⟨es, h⟩
    cases h with
    | logFailure rest => exact ⟨_, rest⟩
  · rintro ⟨es, h⟩
    exact ⟨_, .logFailure h⟩

@[simp] theorem leads_report {next : Action (Parser V) V α} :
    (Action.report finding next).Leads rules ctx x ctx' ↔
      next.Leads rules (ctx.report finding) x ctx' := by
  constructor
  · rintro ⟨es, h⟩
    cases h with
    | report rest => exact ⟨_, rest⟩
  · rintro ⟨es, h⟩
    exact ⟨_, .report h⟩

@[simp] theorem leads_clearPartials {next : Action (Parser V) V α} :
    (Action.clearPartials next).Leads rules ctx x ctx' ↔
      next.Leads rules { ctx with partials := [] } x ctx' := by
  constructor
  · rintro ⟨es, h⟩
    cases h with
    | clearPartials rest => exact ⟨_, rest⟩
  · rintro ⟨es, h⟩
    exact ⟨_, .clearPartials h⟩

@[simp] theorem leads_keepPartials {next : Action (Parser V) V α} :
    (Action.keepPartials produced next).Leads rules ctx x ctx' ↔
      next.Leads rules { ctx with partials := produced ++ ctx.partials } x ctx' := by
  constructor
  · rintro ⟨es, h⟩
    cases h with
    | keepPartials rest => exact ⟨_, rest⟩
  · rintro ⟨es, h⟩
    exact ⟨_, .keepPartials h⟩

@[simp] theorem leads_askMode {next : ChoiceMode → Action (Parser V) V α} :
    (Action.askMode next).Leads rules ctx x ctx' ↔
      (next ctx.config.choiceMode).Leads rules ctx x ctx' := by
  constructor
  · rintro ⟨es, h⟩
    cases h with
    | askMode rest => exact ⟨_, rest⟩
  · rintro ⟨es, h⟩
    exact ⟨_, .askMode h⟩

theorem leads_traced_iff {region : Action (Parser V) V (Outcome V)}
    (gate : ctx.enter? name (firstPos input) = .ok entered) :
    (Action.traced name input region).Leads rules ctx o ctx' ↔
      ∃ inside, region.Leads rules entered o inside ∧
        ctx' = inside.leave name (firstPos input) entered.traces.size o := by
  constructor
  · rintro ⟨es, h⟩
    cases h with
    | refused gate' rest =>
      rw [gate'] at gate
      cases gate
    | guarded gate' hregion rest =>
      cases gate.symm.trans gate'
      obtain ⟨rfl, rfl, -⟩ := runs_done.1 rest
      exact ⟨_, ⟨_, hregion⟩, rfl⟩
  · rintro ⟨inside, ⟨es, h⟩, rfl⟩
    exact ⟨_, .guarded gate h .done⟩

theorem leads_traced_refused {region : Action (Parser V) V (Outcome V)}
    (gate : ctx.enter? name (firstPos input) = .error refusal) :
    (Action.traced name input region).Leads rules ctx o ctx' ↔ o = .error refusal ∧ ctx' = ctx := by
  constructor
  · rintro ⟨es, h⟩
    cases h with
    | refused gate' rest =>
      cases gate.symm.trans gate'
      obtain ⟨rfl, rfl, -⟩ := runs_done.1 rest
      exact ⟨rfl, rfl⟩
    | guarded gate' _ _ =>
      rw [gate'] at gate
      cases gate
  · rintro ⟨rfl, rfl⟩
    exact ⟨_, .refused gate .done⟩

theorem Leads.depth {a : Action (Parser V) V α} (h : a.Leads rules ctx x ctx') :
    ctx'.depth = ctx.depth := by
  obtain ⟨es, h⟩ := h
  exact h.depth

end Action

theorem Parser.exists_run_iff {p : Parser V} {ctx ctx' : Context V} :
    (∃ n, Parser.run rules n p input ctx = some (o, ctx')) ↔
      (p.body rules input).Leads rules ctx o ctx' := by
  rw [← parses_iff_run]
  constructor
  · rintro ⟨_, nested, h, -⟩
    exact ⟨nested, h⟩
  · rintro ⟨nested, h⟩
    exact ⟨_, nested, h, rfl⟩

theorem Parser.exists_isSome_iff {p : Parser V} {ctx : Context V} :
    (∃ n, (Parser.run rules n p input ctx).isSome) ↔
      ∃ o ctx', (p.body rules input).Leads rules ctx o ctx' := by
  simp only [← Parser.exists_run_iff, Option.isSome_iff_exists, Prod.exists]
  constructor
  · rintro ⟨n, o, ctx', hrun⟩
    exact ⟨o, ctx', n, hrun⟩
  · rintro ⟨o, ctx', n, hrun⟩
    exact ⟨n, o, ctx', hrun⟩

-- ---------------------------------------------------------------------------
-- Two actions
-- ---------------------------------------------------------------------------

namespace Action

/-- Whether what `a` leads to, `a'` leads to as well, up to `post`, from a context that `pre`
relates. -/
def Follows (rules : Rules V) (pre : Context V → Context V → Prop) (a : Action (Parser V) V α)
    (a' : Action (Parser V) V β) (post : α → β → Context V → Context V → Prop) : Prop :=
  ∀ ctx ctx' x c, pre ctx ctx' → a.Leads rules ctx x c →
    ∃ y c', a'.Leads rules ctx' y c' ∧ post x y c c'

structure EndsAlike (rules : Rules V) (pre : Context V → Context V → Prop)
    (a : Action (Parser V) V α) (a' : Action (Parser V) V β)
    (post : α → β → Context V → Context V → Prop) : Prop where
  forth : a.Follows rules pre a' post
  back : a'.Follows rules (fun c' c => pre c c') a (fun y x c' c => post x y c c')

variable {pre : Context V → Context V → Prop} {a : Action (Parser V) V α}
  {a' : Action (Parser V) V β}

theorem Follows.bind {f : α → Action (Parser V) V γ} {f' : β → Action (Parser V) V δ}
    (h : a.Follows rules pre a' mid)
    (hnext : ∀ x y, (f x).Follows rules (mid x y) (f' y) post) :
    (a.bind f).Follows rules pre (a'.bind f') post := by
  intro ctx ctx' z c hctx hleads
  obtain ⟨x, ctx₁, hfirst, hsecond⟩ := leads_bind_iff.1 hleads
  obtain ⟨y, ctx₁', hfirst', hmid⟩ := h ctx ctx' x ctx₁ hctx hfirst
  obtain ⟨z', c', hsecond', hpost⟩ := hnext x y ctx₁ ctx₁' z c hmid hsecond
  exact ⟨z', c', leads_bind_iff.2 ⟨y, ctx₁', hfirst', hsecond'⟩, hpost⟩

theorem Follows.mono (h : a.Follows rules pre a' post) (hpre : ∀ c c', pre' c c' → pre c c')
    (hpost : ∀ x y c c', post x y c c' → post' x y c c') : a.Follows rules pre' a' post' := by
  intro ctx ctx' x c hctx hleads
  obtain ⟨y, c', hleads', hc⟩ := h ctx ctx' x c (hpre _ _ hctx) hleads
  exact ⟨y, c', hleads', hpost _ _ _ _ hc⟩

theorem Follows.step {b : Action (Parser V) V α} {b' : Action (Parser V) V β}
    {f f' : Context V → Context V} (h : b.Follows rules pre' b' post)
    (ha : ∀ ctx x c, a.Leads rules ctx x c ↔ b.Leads rules (f ctx) x c)
    (ha' : ∀ ctx y c, a'.Leads rules ctx y c ↔ b'.Leads rules (f' ctx) y c)
    (hpre : ∀ c c', pre c c' → pre' (f c) (f' c')) : a.Follows rules pre a' post := by
  intro ctx ctx' x c hctx hleads
  obtain ⟨y, c', hleads', hc⟩ := h _ _ x c (hpre ctx ctx' hctx) ((ha ctx x c).1 hleads)
  exact ⟨y, c', (ha' ctx' y c').2 hleads', hc⟩

namespace EndsAlike

theorem flip (h : EndsAlike rules pre a a' post) :
    EndsAlike rules (fun c' c => pre c c') a' a (fun y x c' c => post x y c c') :=
  ⟨h.back, h.forth⟩

theorem bind {f : α → Action (Parser V) V γ} {f' : β → Action (Parser V) V δ}
    (h : EndsAlike rules pre a a' mid)
    (hnext : ∀ x y, EndsAlike rules (mid x y) (f x) (f' y) post) :
    EndsAlike rules pre (a.bind f) (a'.bind f') post :=
  ⟨h.forth.bind fun x y => (hnext x y).forth, h.back.bind fun y x => (hnext x y).back⟩

theorem of_done (h : ∀ c c', pre c c' → post x y c c') :
    EndsAlike rules pre (.done x : Action (Parser V) V α) (.done y : Action (Parser V) V β)
      post := by
  constructor
  · intro ctx ctx' x' c hctx hleads
    obtain ⟨rfl, rfl⟩ := leads_done.1 hleads
    exact ⟨y, ctx', leads_done.2 ⟨rfl, rfl⟩, h c ctx' hctx⟩
  · intro ctx' ctx y' c' hctx hleads
    obtain ⟨rfl, rfl⟩ := leads_done.1 hleads
    exact ⟨x, ctx, leads_done.2 ⟨rfl, rfl⟩, h ctx c' hctx⟩

theorem mono (h : EndsAlike rules pre a a' post) (hpre : ∀ c c', pre' c c' → pre c c')
    (hpost : ∀ x y c c', post x y c c' → post' x y c c') :
    EndsAlike rules pre' a a' post' :=
  ⟨h.forth.mono hpre hpost,
    h.back.mono (fun c' c => hpre c c') fun y x c' c => hpost x y c c'⟩

/-- What the relation of the contexts says of the answers before may be assumed. -/
theorem of_fact {q : Prop} (h : q → EndsAlike rules pre a a' post) :
    EndsAlike rules (fun c c' => q ∧ pre c c') a a' post :=
  ⟨fun ctx ctx' x c hctx hleads => (h hctx.1).forth ctx ctx' x c hctx.2 hleads,
    fun ctx' ctx y c' hctx hleads => (h hctx.1).back ctx' ctx y c' hctx.2 hleads⟩

/-- Actions end alike as those do that are left after a first step of each, which changes the
context by `f` and by `f'`. -/
theorem step {b : Action (Parser V) V α} {b' : Action (Parser V) V β}
    {f f' : Context V → Context V} (h : EndsAlike rules pre' b b' post)
    (ha : ∀ ctx x c, a.Leads rules ctx x c ↔ b.Leads rules (f ctx) x c)
    (ha' : ∀ ctx y c, a'.Leads rules ctx y c ↔ b'.Leads rules (f' ctx) y c)
    (hpre : ∀ c c', pre c c' → pre' (f c) (f' c')) : EndsAlike rules pre a a' post :=
  ⟨h.forth.step ha ha' hpre, h.back.step ha' ha fun c' c => hpre c c'⟩

theorem of_related (hends : ∀ ctx ctx', pre ctx ctx' →
      ((∃ x c, a.Leads rules ctx x c) ↔ ∃ y c', a'.Leads rules ctx' y c'))
    (hrelated : ∀ ctx ctx' x y c c', pre ctx ctx' → a.Leads rules ctx x c →
      a'.Leads rules ctx' y c' → post x y c c') : EndsAlike rules pre a a' post := by
  constructor
  · intro ctx ctx' x c hctx hleads
    obtain ⟨y, c', hleads'⟩ := (hends ctx ctx' hctx).1 ⟨x, c, hleads⟩
    exact ⟨y, c', hleads', hrelated _ _ _ _ _ _ hctx hleads hleads'⟩
  · intro ctx' ctx y c' hctx hleads'
    obtain ⟨x, c, hleads⟩ := (hends ctx ctx' hctx).2 ⟨y, c', hleads'⟩
    exact ⟨x, c, hleads, hrelated _ _ _ _ _ _ hctx hleads hleads'⟩

theorem ends_iff (h : EndsAlike rules pre a a' post) (hctx : pre ctx ctx') :
    (∃ x c, a.Leads rules ctx x c) ↔ ∃ y c', a'.Leads rules ctx' y c' := by
  constructor
  · rintro ⟨x, c, hleads⟩
    obtain ⟨y, c', hleads', -⟩ := h.forth ctx ctx' x c hctx hleads
    exact ⟨y, c', hleads'⟩
  · rintro ⟨y, c', hleads⟩
    obtain ⟨x, c, hleads', -⟩ := h.back ctx' ctx y c' hctx hleads
    exact ⟨x, c, hleads'⟩

theorem related (h : EndsAlike rules pre a a' post) (hctx : pre ctx ctx')
    (hleads : a.Leads rules ctx x c) (hleads' : a'.Leads rules ctx' y c') : post x y c c' := by
  obtain ⟨y₁, c₁', hfollowed, hpost⟩ := h.forth ctx ctx' x c hctx hleads
  obtain ⟨rfl, rfl⟩ := hfollowed.unique hleads'
  exact hpost

/-- Without a limit on depth a region may be traced on one side alone, where neither depth nor
trace is compared. -/
theorem traced_left {region : Action (Parser V) V (Outcome V)}
    (h : EndsAlike rules pre region a' post) (name : String) (input : List (Token V))
    (hpre : ∀ c c' depth traces, pre c c' →
      c.config.maxDepth = 0 ∧ pre { c with depth, traces } c')
    (hpost : ∀ o y c c' depth traces, post o y c c' → post o y { c with depth, traces } c') :
    EndsAlike rules pre (Action.traced name input region) a' post := by
  have henter : ∀ ctx ctx', pre ctx ctx' → ∃ entered,
      ctx.enter? name (firstPos input) = .ok entered ∧ pre entered ctx' := by
    intro ctx ctx' hctx
    obtain ⟨entered, gate⟩ := Context.exists_enter?
      (fun hlimit => Nat.ne_of_gt hlimit.1 (hpre ctx ctx' ctx.depth ctx.traces hctx).1)
      name (firstPos input)
    obtain ⟨-, traces, rfl⟩ := Context.enter?_ok gate
    exact ⟨_, gate, (hpre _ _ _ _ hctx).2⟩
  have hleave : ∀ o y inside c' mark, post o y inside c' →
      post o y (inside.leave name (firstPos input) mark o) c' := by
    intro o y inside c' mark hc
    obtain ⟨traces, hleft⟩ := Context.leave_eq inside name (firstPos input) mark o
    rw [hleft]
    exact hpost _ _ _ _ _ _ hc
  constructor
  · intro ctx ctx' o c hctx hleads
    obtain ⟨entered, gate, hentered⟩ := henter ctx ctx' hctx
    obtain ⟨inside, hregion, rfl⟩ := (leads_traced_iff gate).1 hleads
    obtain ⟨y, c', hleads', hc⟩ := h.forth entered ctx' o inside hentered hregion
    exact ⟨y, c', hleads', hleave _ _ _ _ _ hc⟩
  · intro ctx' ctx y c' hctx hleads
    obtain ⟨entered, gate, hentered⟩ := henter ctx ctx' hctx
    obtain ⟨o, inside, hregion, hc⟩ := h.back ctx' entered y c' hentered hleads
    exact ⟨o, _, (leads_traced_iff gate).2 ⟨inside, hregion, rfl⟩, hleave _ _ _ _ _ hc⟩

theorem traced_right {region' : Action (Parser V) V (Outcome V)}
    (h : EndsAlike rules pre a region' post) (name : String) (input : List (Token V))
    (hpre : ∀ c c' depth traces, pre c c' →
      c'.config.maxDepth = 0 ∧ pre c { c' with depth, traces })
    (hpost : ∀ x o c c' depth traces, post x o c c' → post x o c { c' with depth, traces }) :
    EndsAlike rules pre a (Action.traced name input region') post :=
  (h.flip.traced_left name input (fun c' c depth traces hc => hpre c c' depth traces hc)
    fun o x c' c depth traces hc => hpost x o c c' depth traces hc).flip

end EndsAlike

end Action

-- ---------------------------------------------------------------------------
-- Without a limit on depth
-- ---------------------------------------------------------------------------

/-- Whether code of a grammar's author sets no limit on depth. -/
def Action.SetsNoLimit {P : Type 1} {V : Type} (a : Action P V α) : Prop :=
  a.Changes fun change => ∀ config : Config, config.maxDepth = 0 → (change config).maxDepth = 0

/-- Whether two contexts differ at most in depth and trace, and have no limit on depth. -/
abbrev Context.Beside {V : Type} (ctx ctx' : Context V) : Prop := ctx.Resembles .wrapping ctx'

section
omit [TokenValue V]

namespace Context

variable {ctx ctx' : Context V}

theorem Beside.refl (hlimit : ctx.config.maxDepth = 0) : ctx.Beside ctx :=
  .of_options ⟨rfl, hlimit⟩

theorem Beside.unlimited (h : ctx.Beside ctx') : ctx.config.maxDepth = 0 := h.config.2

theorem Beside.eq (h : ctx.Beside ctx') :
    ctx' = { ctx with depth := ctx'.depth, traces := ctx'.traces } := by
  have hsame := (h.apart_right rfl ctx.depth ctx'.traces).eq_withTraces rfl h.config.1.symm rfl
  exact congrArg (fun c : Context V => { c with depth := ctx'.depth }) hsame

theorem Beside.unlimited_right (h : ctx.Beside ctx') : ctx'.config.maxDepth = 0 := by
  rw [h.eq]
  exact h.unlimited

end Context

theorem Action.parallel_self {G : Grammar V} {a : Action (Parser V) V α}
    (hcalls : a.Only (fun _ => True) (· ∈ G)) (hlimit : a.SetsNoLimit) :
    a.Parallel .wrapping (fun p p' => p = p' ∧ p ∈ G) a := by
  induction a with
  | done => exact .done
  | call p input next ih =>
    exact .call ⟨rfl, hcalls.1⟩ fun o => ih o (hcalls.2 o) (hlimit o)
  | guarded name input region next ihRegion ih =>
    exact .guarded rfl (ihRegion hcalls.1 hlimit.1) fun o => ih o (hcalls.2 o) (hlimit.2 o)
  | client code next ihCode ih =>
    exact .client (ihCode hcalls.1 hlimit.1) fun r => ih r (hcalls.2 r) (hlimit.2 r)
  | askMode next ih =>
    refine .askMode fun c c' hc => ?_
    rw [hc.1]
    exact ih _ (hcalls.2 _) (hlimit _)
  | logFailure failure fallback next ih => exact .logFailure (ih hcalls.2 hlimit)
  | report finding next ih =>
    exact .report (.of_refl (fun _ => rfl) finding) (ih hcalls.2 hlimit)
  | clearPartials next ih => exact .clearPartials (ih hcalls.2 hlimit)
  | keepPartials produced next ih => exact .keepPartials (ih hcalls.2 hlimit)
  | checkReproduction p location converted next ih =>
    exact .checkReproduction ⟨rfl, hcalls.2.1⟩ (ih hcalls.2.2 hlimit)
  | configure change next ih =>
    exact .configure (fun c c' hc => ⟨congrArg change hc.1, hlimit.1 c hc.2⟩)
      (ih hcalls.2 hlimit.2)

end

theorem Action.EndsAlike.traced_left_of_beside {q : Outcome V → β → Prop}
    {region : Action (Parser V) V (Outcome V)} {a' : Action (Parser V) V β}
    (h : Action.EndsAlike rules Context.Beside region a' fun o y c c' => q o y ∧ c.Beside c')
    (name : String) (input : List (Token V)) :
    Action.EndsAlike rules Context.Beside (.traced name input region) a'
      fun o y c c' => q o y ∧ c.Beside c' :=
  h.traced_left name input
    (fun _ _ depth traces hc => ⟨hc.unlimited, hc.apart_left rfl depth traces⟩)
    fun _ _ _ _ depth traces hc => ⟨hc.1, hc.2.apart_left rfl depth traces⟩

/-- A parser whose grammar sets no limit comes to the same outcome at any depth. -/
theorem Grammar.parse_endsAlike {G : Grammar V} (hclients : ∀ p ∈ G, p.Clients Action.SetsNoLimit)
    (hp : p ∈ G) (input : List (Token V)) :
    Action.EndsAlike G.rules Context.Beside (.parse p input) (.parse p input)
      fun o o' c c' => o' = o ∧ c.Beside c' := by
  have hsteps : ∀ p p', p = p' ∧ p ∈ G → ∀ input, (p.body G.rules input).Parallel .wrapping
      (fun p p' => p = p' ∧ p ∈ G) (p'.body G.rules input) := by
    rintro p _ ⟨rfl, hp⟩ input
    exact Action.parallel_self (Grammar.calls_only hp input)
      (Parser.body_changes (hclients p hp) input)
  have hends : ∀ ctx ctx', ctx.Beside ctx' → Parser.EndsAlike Context.Beside G.rules p ctx
      G.rules p ctx' input :=
    fun ctx ctx' hctx => Parser.endsAlike_of_parallel hsteps ⟨rfl, hp⟩ hctx input
  refine .of_related (fun ctx ctx' hctx => ?_) fun ctx ctx' o o' c c' hctx hleads hleads' => ?_
  · simpa only [Parser.exists_isSome_iff, Action.leads_parse_iff] using (hends ctx ctx' hctx).1
  · obtain ⟨m, hrun⟩ := Parser.exists_run_iff.2 (Action.leads_parse_iff.1 hleads)
    obtain ⟨n, hrun'⟩ := Parser.exists_run_iff.2 (Action.leads_parse_iff.1 hleads')
    obtain ⟨rfl, hc⟩ := (hends ctx ctx' hctx).2 m n o o' c c' hrun hrun'
    exact ⟨rfl, hc⟩

end TokenGrammar
