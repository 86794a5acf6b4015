import TokenGrammar.Leaf
import TokenGrammar.Proofs.Frame

/-!
# Runs without a limit on depth

Where depth has no limit the guard lets everything in. `Action.ComesTo` says what an
action comes to, and what it logs, in every such context; its laws follow the steps of
an action, so that the answer of a combinator is put together from those of its parts.
-/

namespace TokenGrammar

variable {V : Type} [TokenValue V] {rules : Rules V}

/-- Whether an action comes to `x` in every context without a limit on depth, logs just
these failures and sets no limit. -/
def Action.ComesTo (rules : Rules V) (a : Action (Parser V) V α) (x : α)
    (logged : List Failure) : Prop :=
  ∀ ctx : Context V, ctx.config.maxDepth = 0 → ∃ ctx' es, Runs rules a ctx x ctx' es ∧
    ctx'.config.maxDepth = 0 ∧ es.filterMap Event.logged? = logged

/-- Whether a parser comes to `o` on `input` in every context without a limit on depth,
logs nothing and sets no limit. -/
def Parser.Reads (rules : Rules V) (p : Parser V) (input : List (Token V))
    (o : Outcome V) : Prop :=
  ∀ ctx : Context V, ctx.config.maxDepth = 0 → ∃ n ctx',
    Parser.run rules n p input ctx = some (o, ctx') ∧
      ctx'.failures = ctx.failures ∧ ctx'.config.maxDepth = 0

theorem Parser.Reads.comesTo {p : Parser V} (h : p.Reads rules input o) :
    (p.body rules input).ComesTo rules o [] := by
  intro ctx hctx
  obtain ⟨n, ctx', hrun, hfailures, hctx'⟩ := h ctx hctx
  obtain ⟨es, hes⟩ := runs_of_run hrun
  have hlogged := hes.failures
  rw [hfailures] at hlogged
  exact ⟨ctx', es, hes, hctx', List.append_right_eq_self.1 hlogged.symm⟩

theorem Leaf.plain_reads (expected missing : String) (read : Token V → Outcome V)
    (input : List (Token V)) :
    (Leaf.plain expected missing read).Reads rules input
      (Leaf.onFirst expected missing read input) :=
  fun ctx hctx => ⟨1, ctx, rfl, rfl, hctx⟩

namespace Action.ComesTo

theorem done : (Action.done x : Action (Parser V) V α).ComesTo rules x [] :=
  fun ctx hctx => ⟨ctx, [], .done, hctx, rfl⟩

theorem call {p : Parser V} (hparse : (p.body rules input).ComesTo rules o first)
    (hnext : (next o).ComesTo rules x later) :
    (Action.call p input next).ComesTo rules x (first ++ later) := by
  intro ctx hctx
  obtain ⟨ctx₁, nested, hrun, hctx₁, rfl⟩ := hparse ctx hctx
  obtain ⟨ctx₂, es, hrest, hctx₂, rfl⟩ := hnext ctx₁ hctx₁
  exact ⟨ctx₂, _, .call hrun hrest, hctx₂, by simp⟩

theorem guarded {region : Action (Parser V) V (Outcome V)}
    (hregion : region.ComesTo rules o first) (hnext : (next o).ComesTo rules x later) :
    (Action.guarded name input region next).ComesTo rules x (first ++ later) := by
  intro ctx hctx
  have hbelow : ¬ ctx.AtLimit := fun hlimit => Nat.ne_of_gt hlimit.1 hctx
  obtain ⟨entered, gate⟩ := Context.exists_enter? hbelow name (firstPos input)
  obtain ⟨ctx₁, nested, hrun, hctx₁, rfl⟩ :=
    hregion entered (by rw [Context.enter?_config gate, hctx])
  obtain ⟨ctx₂, es, hrest, hctx₂, rfl⟩ :=
    hnext (ctx₁.leave name (firstPos input) entered.traces.size o)
      (by rw [Context.leave_config, hctx₁])
  exact ⟨ctx₂, _, .guarded gate hrun hrest, hctx₂, by simp [Event.logged?, List.filterMap_cons]⟩

theorem traced {region : Action (Parser V) V (Outcome V)} (h : region.ComesTo rules o logged) :
    (Action.traced name input region).ComesTo rules o logged := by
  rw [← List.append_nil logged]
  exact h.guarded done

theorem parse {p : Parser V} (h : (p.body rules input).ComesTo rules o logged) :
    (Action.parse p input).ComesTo rules o logged := by
  rw [← List.append_nil logged]
  exact h.call done

theorem logFailure {failure : Failure} (h : next.ComesTo rules x later) :
    (Action.logFailure failure fallback next).ComesTo rules x
      (failure.orAt fallback :: later) := by
  intro ctx hctx
  obtain ⟨ctx', es, hrun, hctx', rfl⟩ := h (ctx.logFailure failure fallback) hctx
  exact ⟨ctx', _, .logFailure hrun, hctx', by simp [Event.logged?]⟩

end Action.ComesTo

end TokenGrammar
