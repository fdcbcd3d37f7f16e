import Mathlib.Data.List.Basic
import MapChain.Pipeline
import MapChain.Proofs.Compiler.FirstError
import MapChain.Proofs.Except

/-!
# Calls of a pipeline

What a pipeline asks its two stages for, and what it makes of their answers. The stages are any
functions on a state of their own, so each of them may answer however it likes, with an eye to all
it has been asked before.

## Layers

- **Answers**: which names are typed, and which answers of the compiler go on.
- **Exchanges**: a pipeline that keeps a record of what its stages are asked and answer.
- **One call**: `Goes` lists the ways a call can go, and `Adds` follows a call with its record.
- **Runs**: every call of a run is of this kind, whatever became of the calls before it.
- **Statement**: `calls_regular`.
-/

namespace MapChain

/-! ## Answers -/

/-- A file is typed when its name ends in `.ts` or in `.tsx`. -/
def IsTypedName (name : String) : Prop := ∃ stem, name = stem ++ ".ts" ∨ name = stem ++ ".tsx"

theorem isTypedFile_iff {name : String} : isTypedFile name = true ↔ IsTypedName name := by
  have hsuffix : ∀ e : String,
      e.toList.isSuffixOf name.toList = true ↔ ∃ stem, name = stem ++ e := by
    intro e
    rw [List.isSuffixOf_iff_suffix]
    constructor
    · rintro ⟨stem, hstem⟩
      exact ⟨String.ofList stem, String.toList_inj.mp (by simp [hstem])⟩
    · rintro ⟨stem, rfl⟩
      exact ⟨stem.toList, String.toList_append.symm⟩
  simp only [isTypedFile, typedExtensions, List.any_cons, List.any_nil, Bool.or_false,
    Bool.or_eq_true, hsuffix, IsTypedName, exists_or]

/-- An answer of the compiler goes on: it is an output that reports no error and has a map that is
decoded. -/
def IsUsable (reply : Except CompileStageError CompilerOutput) (output : CompilerOutput) : Prop :=
  reply = .ok output ∧ (∀ d ∈ output.diagnostics, d.category ≠ .error) ∧
    ∃ mapText map, output.mapText = some mapText ∧ SourceMap.ofText mapText = .ok map

theorem ofOutput_eq_ok_iff {source fileName : String} {output : CompilerOutput}
    {compiled : CompiledModule} :
    CompiledModule.ofOutput source fileName output = .ok compiled ↔
      (∀ d ∈ output.diagnostics, d.category ≠ .error) ∧
        ∃ mapText map, output.mapText = some mapText ∧ SourceMap.ofText mapText = .ok map ∧
          compiled = ⟨output.text, map, output.diagnostics⟩ := by
  rw [CompiledModule.ofOutput_eq_iff]
  constructor
  · intro h
    cases h with
    | compiled hnone htext hmap => exact ⟨hnone, _, _, htext, hmap, rfl⟩
  · rintro ⟨hnone, mapText, map, htext, hmap, rfl⟩
    exact .compiled hnone htext hmap

/-- An answer compiles to something just when it goes on, and then its text is what is compiled. -/
theorem exists_compiled_iff {source fileName : String}
    {reply : Except CompileStageError CompilerOutput} {text : String} :
    (∃ compiled, reply >>= CompiledModule.ofOutput source fileName = .ok compiled ∧
        compiled.text = text) ↔
      ∃ output, IsUsable reply output ∧ output.text = text := by
  simp only [bind_eq_ok_iff, ofOutput_eq_ok_iff, IsUsable]
  constructor
  · rintro ⟨_, ⟨output, hreply, hall, mapText, map, hmapText, hmap, rfl⟩, rfl⟩
    exact ⟨output, ⟨hreply, hall, mapText, map, hmapText, hmap⟩, rfl⟩
  · rintro ⟨output, ⟨hreply, hall, mapText, map, hmapText, hmap⟩, rfl⟩
    exact ⟨_, ⟨output, hreply, hall, mapText, map, hmapText, hmap, rfl⟩, rfl⟩

/-! ## Exchanges -/

/-- What one of the stages answers. -/
inductive StageReply where
  | compiler (reply : Except CompileStageError CompilerOutput)
  | transformer (reply : Except DownstreamError Fields)

/-- What one of the stages is asked, and what it answers. -/
inductive Exchange where
  | compiler (input : CompilerInput) (reply : Except CompileStageError CompilerOutput)
  | transformer (input : DownstreamInput) (reply : Except DownstreamError Fields)

/-- The answer in an exchange. -/
def Exchange.reply : Exchange → StageReply
  | .compiler _ reply => .compiler reply
  | .transformer _ reply => .transformer reply

/-- A call of a pipeline with all that is exchanged for it, in this order. -/
structure PipelineCall where
  args : TransformArgs
  exchanges : List Exchange
  outcome : Except TransformError TransformResult

namespace PipelineCall

/-- What the stages answered in a call. -/
def replies (c : PipelineCall) : List StageReply := c.exchanges.map (·.reply)

/-- What a call of a pipeline with these options asks its stages for, and how it ends. -/
structure Regular (options : CompilerOptions) (c : PipelineCall) : Prop where
  /-- A file that is not typed is for the transformer only, whose result is returned as it is. -/
  passed : ¬ IsTypedName c.args.fileName → ∃ reply,
    c.exchanges = [.transformer ⟨c.args.source, c.args.fileName, c.args.options⟩ reply] ∧
      (∀ result, reply = .ok result → ∃ r, c.outcome = .ok r ∧ r.toValue = .object result) ∧
      ∀ e, reply = .error e → c.outcome = .error (.downstream e)
  /-- A typed file is compiled first. The transformer is asked for what the compiler wrote when that
  goes on, and not at all when it does not. -/
  compiled : IsTypedName c.args.fileName → ∃ reply later,
    c.exchanges = .compiler ⟨c.args.source, c.args.fileName, options⟩ reply :: later ∧
      (∀ output, IsUsable reply output → ∃ answer,
        later = [.transformer ⟨output.text, c.args.fileName, c.args.options⟩ answer]) ∧
      ((∀ output, ¬ IsUsable reply output) → later = [])

end PipelineCall

namespace Pipeline

section Recording

variable {m : Type → Type} [Monad m]

/-- The same pipeline with a record of its exchanges, the newest last. -/
def recorded (p : Pipeline m) : Pipeline (StateT (List Exchange) m) where
  options := p.options
  compiler input := do
    let reply ← p.compiler input
    modify (· ++ [.compiler input reply])
    return reply
  transformer input := do
    let reply ← p.transformer input
    modify (· ++ [.transformer input reply])
    return reply

/-- Transforms one file and keeps what is exchanged for it. -/
def call (p : Pipeline m) (args : TransformArgs) : m PipelineCall := do
  let (outcome, exchanges) ← (p.recorded.transform args).run []
  return ⟨args, exchanges, outcome⟩

end Recording

/-! ## One call -/

/-- The ways a call can go: the exchanges it comes to and its outcome. -/
inductive Goes (options : CompilerOptions) (args : TransformArgs) :
    List Exchange → Except TransformError TransformResult → Prop where
  | passed (reply : Except DownstreamError Fields) (htyped : isTypedFile args.fileName = false) :
      Goes options args [.transformer ⟨args.source, args.fileName, args.options⟩ reply]
        ((reply.map .passThrough).mapError .downstream)
  /-- The compiler fails, or its answer does not go on. -/
  | notCompiled (reply : Except CompileStageError CompilerOutput) (e : CompileStageError)
      (htyped : isTypedFile args.fileName = true)
      (hreply : reply >>= CompiledModule.ofOutput args.source args.fileName = .error e) :
      Goes options args [.compiler ⟨args.source, args.fileName, options⟩ reply]
        (.error (.compile e))
  | compiled (reply : Except CompileStageError CompilerOutput) (compiled : CompiledModule)
      (answer : Except DownstreamError Fields) (htyped : isTypedFile args.fileName = true)
      (hreply : reply >>= CompiledModule.ofOutput args.source args.fileName = .ok compiled) :
      Goes options args
        [.compiler ⟨args.source, args.fileName, options⟩ reply,
          .transformer ⟨compiled.text, args.fileName, args.options⟩ answer]
        (((answer >>= DownstreamShape.classify).map fun shape =>
          compose compiled.map shape args.fileName args.source).mapError .downstream)

/-- The answers of the stages determine a call. -/
theorem Goes.unique {options : CompilerOptions} {args : TransformArgs}
    {exchanges exchanges' : List Exchange}
    {outcome outcome' : Except TransformError TransformResult}
    (h : Goes options args exchanges outcome) (h' : Goes options args exchanges' outcome')
    (hreplies : exchanges.map (·.reply) = exchanges'.map (·.reply)) :
    exchanges = exchanges' ∧ outcome = outcome' := by
  cases h <;> cases h' <;> simp_all [Exchange.reply]

theorem Goes.regular {options : CompilerOptions} {args : TransformArgs} {exchanges : List Exchange}
    {outcome : Except TransformError TransformResult} (h : Goes options args exchanges outcome) :
    (PipelineCall.mk args exchanges outcome).Regular options := by
  cases h with
  | passed reply htyped =>
    have hname : ¬ IsTypedName args.fileName := by simp [← isTypedFile_iff, htyped]
    refine ⟨fun _ => ⟨reply, rfl, ?_, ?_⟩, fun h => absurd h hname⟩
    · rintro result rfl
      exact ⟨.passThrough result, rfl, rfl⟩
    · rintro e rfl
      rfl
  | notCompiled reply e htyped hreply =>
    refine ⟨fun h => absurd (isTypedFile_iff.mp htyped) h, fun _ =>
      ⟨reply, [], rfl, ?_, fun _ => rfl⟩⟩
    intro output husable
    obtain ⟨compiled, hcompiled, -⟩ := exists_compiled_iff.mpr ⟨output, husable, rfl⟩
    cases hreply.symm.trans hcompiled
  | compiled reply compiled answer htyped hreply =>
    refine ⟨fun h => absurd (isTypedFile_iff.mp htyped) h, fun _ => ⟨reply, _, rfl, ?_, ?_⟩⟩
    · intro output husable
      obtain ⟨compiled', hcompiled, htext⟩ := exists_compiled_iff.mpr ⟨output, husable, rfl⟩
      cases hreply.symm.trans hcompiled
      exact ⟨answer, by rw [htext]⟩
    · intro hnone
      obtain ⟨output, husable, -⟩ := exists_compiled_iff.mp ⟨compiled, hreply, rfl⟩
      exact absurd husable (hnone output)

section Recorded

variable {σ α β : Type} {s s' s'' : σ} {exchanges exchanges' : List Exchange}

/-- A computation with a record does what one without a record does, and adds these exchanges. -/
structure Adds (x : StateT (List Exchange) (StateM σ) α) (y : StateM σ α) (s : σ)
    (exchanges : List Exchange) (a : α) (s' : σ) : Prop where
  plain : y.run s = (a, s')
  recorded : ∀ log, (x.run log).run s = ((a, log ++ exchanges), s')

theorem adds_pure (a : α) (s : σ) : Adds (pure a) (pure a) s [] a s :=
  ⟨rfl, fun log => by rw [List.append_nil]; rfl⟩

theorem Adds.bind {x : StateT (List Exchange) (StateM σ) α} {y : StateM σ α}
    {f : α → StateT (List Exchange) (StateM σ) β} {g : α → StateM σ β} {a : α} {b : β}
    (h : Adds x y s exchanges a s') (h' : Adds (f a) (g a) s' exchanges' b s'') :
    Adds (x >>= f) (y >>= g) s (exchanges ++ exchanges') b s'' where
  plain := by
    rw [StateT.run_bind, h.plain]
    exact h'.plain
  recorded log := by
    rw [StateT.run_bind, StateT.run_bind, h.recorded log, ← List.append_assoc]
    exact h'.recorded _

variable (p : Pipeline (StateM σ))

theorem adds_compiler (input : CompilerInput) (s : σ) :
    ∃ reply s', Adds (p.recorded.compiler input) (p.compiler input) s [.compiler input reply]
      reply s' :=
  ⟨_, _, rfl, fun _ => rfl⟩

theorem adds_transformer (input : DownstreamInput) (s : σ) :
    ∃ reply s', Adds (p.recorded.transformer input) (p.transformer input) s
      [.transformer input reply] reply s' :=
  ⟨_, _, rfl, fun _ => rfl⟩

theorem adds_compile (input : CompilerInput) (s : σ) :
    ∃ reply s', Adds (compile p.recorded.compiler input) (compile p.compiler input) s
      [.compiler input reply] (reply >>= CompiledModule.ofOutput input.source input.fileName)
      s' := by
  obtain ⟨reply, s', hreply⟩ := adds_compiler p input s
  refine ⟨reply, s', hreply.bind ?_⟩
  cases reply with
  | error e => exact adds_pure _ s'
  | ok output => exact adds_pure _ s'

theorem adds_passThrough (args : TransformArgs) (s : σ) :
    ∃ reply s', Adds (p.recorded.passThrough args) (p.passThrough args) s
      [.transformer ⟨args.source, args.fileName, args.options⟩ reply]
      ((reply.map .passThrough).mapError .downstream) s' := by
  obtain ⟨reply, s', hreply⟩ :=
    adds_transformer p ⟨args.source, args.fileName, args.options⟩ s
  refine ⟨reply, s', hreply.bind ?_⟩
  cases reply with
  | error e => exact adds_pure _ s'
  | ok result => exact adds_pure _ s'

theorem adds_finish (args : TransformArgs) (compiled : CompiledModule) (s : σ) :
    ∃ answer s', Adds (p.recorded.finish args compiled) (p.finish args compiled) s
      [.transformer ⟨compiled.text, args.fileName, args.options⟩ answer]
      (((answer >>= DownstreamShape.classify).map fun shape =>
        compose compiled.map shape args.fileName args.source).mapError .downstream) s' := by
  obtain ⟨answer, s', hanswer⟩ :=
    adds_transformer p ⟨compiled.text, args.fileName, args.options⟩ s
  refine ⟨answer, s', hanswer.bind ?_⟩
  cases answer with
  | error e => exact adds_pure _ s'
  | ok result =>
    simp only [ok_bind]
    cases DownstreamShape.classify result with
    | error e => exact adds_pure _ s'
    | ok shape => exact adds_pure _ s'

/-- Every call goes one of the ways, from whatever state the stages are in. -/
theorem goes_transform (args : TransformArgs) (s : σ) : ∃ exchanges outcome s',
    Adds (p.recorded.transform args) (p.transform args) s exchanges outcome s' ∧
      Goes p.options args exchanges outcome := by
  rw [transform, transform]
  cases htyped : isTypedFile args.fileName with
  | false =>
    obtain ⟨reply, s', hreply⟩ := adds_passThrough p args s
    exact ⟨_, _, s', hreply, .passed reply htyped⟩
  | true =>
    obtain ⟨reply, s', hreply⟩ := adds_compile p ⟨args.source, args.fileName, p.options⟩ s
    cases hcompiled : reply >>= CompiledModule.ofOutput args.source args.fileName with
    | error e =>
      rw [hcompiled] at hreply
      exact ⟨_, _, s', hreply.bind (adds_pure _ s'), .notCompiled reply e htyped hcompiled⟩
    | ok compiled =>
      rw [hcompiled] at hreply
      obtain ⟨answer, s'', hanswer⟩ := adds_finish p args compiled s'
      exact ⟨_, _, s'', hreply.bind hanswer, .compiled reply compiled answer htyped hcompiled⟩

/-! ## Runs -/

theorem run_mapM_cons {f : α → StateM σ β} {a : α} {as : List α} {b : β} {bs : List β}
    (h : (f a).run s = (b, s')) (h' : (as.mapM f).run s' = (bs, s'')) :
    ((a :: as).mapM f).run s = (b :: bs, s'') := by
  rw [List.mapM_cons, StateT.run_bind, h]
  show ((as.mapM f >>= fun bs => pure (b :: bs)).run s' : Id _) = _
  rw [StateT.run_bind, h']
  rfl

/-- Every call of a run goes one of the ways, whatever became of the calls before it. -/
theorem goes_mapM (calls : List TransformArgs) (s : σ) :
    ∃ run s', (calls.mapM p.call).run s = (run, s') ∧
      (calls.mapM p.transform).run s = (run.map (·.outcome), s') ∧ run.map (·.args) = calls ∧
      ∀ c ∈ run, Goes p.options c.args c.exchanges c.outcome := by
  induction calls generalizing s with
  | nil => exact ⟨[], s, rfl, rfl, rfl, nofun⟩
  | cons args calls ih =>
    obtain ⟨exchanges, outcome, s₁, hadds, hgoes⟩ := goes_transform p args s
    obtain ⟨run, s₂, hcalls, htransforms, hargs, hall⟩ := ih s₁
    have hcall : (p.call args).run s = (⟨args, exchanges, outcome⟩, s₁) := by
      rw [call, StateT.run_bind, hadds.recorded []]
      rfl
    refine ⟨⟨args, exchanges, outcome⟩ :: run, s₂, run_mapM_cons hcall hcalls,
      run_mapM_cons hadds.plain htransforms, ?_, List.forall_mem_cons.mpr ⟨hgoes, hall⟩⟩
    rw [List.map_cons, hargs]

end Recorded

/-! ## Statement -/

/-- **Every call of a run is regular**, whatever the stages answer and whatever became of the calls
before it. The record changes nothing about the run. All calls use the options of the pipeline, and
with these a call is determined by its arguments and the answers to it: two calls with the same
arguments and the same answers ask for the same and end in the same way, in whatever runs of
whatever pipelines with these options they stand. -/
theorem calls_regular {σ : Type} (p : Pipeline (StateM σ)) (calls : List TransformArgs) (s : σ) :
    ∃ run s', (calls.mapM p.call).run s = (run, s') ∧
      (calls.mapM p.transform).run s = (run.map (·.outcome), s') ∧
      run.map (·.args) = calls ∧
      (∀ c ∈ run, c.Regular p.options) ∧
      ∀ {τ : Type} (q : Pipeline (StateM τ)) (calls' : List TransformArgs) (t : τ),
        q.options = p.options → ∀ c ∈ run, ∀ c' ∈ ((calls'.mapM q.call).run t).1,
          c.args = c'.args → c.replies = c'.replies →
            c.exchanges = c'.exchanges ∧ c.outcome = c'.outcome := by
  obtain ⟨run, s', hcalls, htransforms, hargs, hall⟩ := goes_mapM p calls s
  refine ⟨run, s', hcalls, htransforms, hargs, fun c hc => (hall c hc).regular, ?_⟩
  intro τ q calls' t hoptions c hc c' hc' hsame hreplies
  obtain ⟨run', t', hcalls', -, -, hall'⟩ := goes_mapM q calls' t
  rw [hcalls'] at hc'
  have hgoes' := hall' c' hc'
  rw [hoptions, ← hsame] at hgoes'
  exact (hall c hc).unique hgoes' hreplies

end Pipeline

end MapChain
