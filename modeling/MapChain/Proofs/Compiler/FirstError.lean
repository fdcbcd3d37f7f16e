import MapChain.Compiler.Compile

/-!
# The first error wins

What a compilation ends with is settled by the compiler's answer. The first diagnostic that is an
error settles it alone: neither the text and the map that were written nor what was reported before
or after it can change the error. Only without such a diagnostic the map is looked at, and then it
must be there and be decoded.

`CompilerOutput.Outcome` has the four ways in which an answer can end, and
`CompiledModule.ofOutput_eq_iff` says that it ends in the one whose conditions hold.

Main result: `compile_settled`.
-/

namespace MapChain

/-! ## Diagnostics -/

namespace Diagnostic

variable {diagnostics : List Diagnostic}

theorem isError_iff {d : Diagnostic} : d.isError ↔ d.category = .error := by
  simp [isError]

/-- The error that is found is the first one. -/
theorem find?_isError_eq_some_iff {d : Diagnostic} :
    diagnostics.find? (·.isError) = some d ↔ ∃ before after,
      diagnostics = before ++ d :: after ∧ (∀ b ∈ before, b.category ≠ .error) ∧
        d.category = .error := by
  simp only [List.find?_eq_some_iff_append, Bool.not_eq_true', Bool.eq_false_iff, isError_iff,
    ne_eq]
  constructor
  · rintro ⟨hd, before, after, hsplit, hbefore⟩
    exact ⟨before, after, hsplit, hbefore, hd⟩
  · rintro ⟨before, after, hsplit, hbefore, hd⟩
    exact ⟨hd, before, after, hsplit, hbefore⟩

theorem find?_isError_eq_none_iff :
    diagnostics.find? (·.isError) = none ↔ ∀ d ∈ diagnostics, d.category ≠ .error := by
  simp only [List.find?_eq_none, isError_iff, ne_eq]

end Diagnostic

/-! ## Answers -/

/-- How a compilation ends with an answer of the compiler about a source. -/
inductive CompilerOutput.Outcome (source fileName : String) (output : CompilerOutput) :
    Except CompileStageError CompiledModule → Prop
  /-- The first error makes the failure, and nothing else in the answer has a part in it. -/
  | failed {before after : List Diagnostic} {d : Diagnostic}
    (hdiagnostics : output.diagnostics = before ++ d :: after)
    (hbefore : ∀ b ∈ before, b.category ≠ .error) (hd : d.category = .error) :
    Outcome source fileName output (.error (.compile (.ofDiagnostic d source)))
  /-- Without an error there must be a map. -/
  | missing (hnone : ∀ d ∈ output.diagnostics, d.category ≠ .error)
    (hmap : output.mapText = none) :
    Outcome source fileName output (.error (.missingMap fileName))
  /-- A map that is there must be decoded. -/
  | invalid {mapText : String} {e : MapError}
    (hnone : ∀ d ∈ output.diagnostics, d.category ≠ .error)
    (htext : output.mapText = some mapText) (he : SourceMap.ofText mapText = .error e) :
    Outcome source fileName output (.error (.invalidMap e))
  /-- Then the text and all diagnostics are kept, with the decoded map. -/
  | compiled {mapText : String} {map : SourceMap}
    (hnone : ∀ d ∈ output.diagnostics, d.category ≠ .error)
    (htext : output.mapText = some mapText) (hmap : SourceMap.ofText mapText = .ok map) :
    Outcome source fileName output (.ok ⟨output.text, map, output.diagnostics⟩)

namespace CompiledModule

variable {source fileName : String} {output : CompilerOutput}

theorem outcome_ofOutput : output.Outcome source fileName (ofOutput source fileName output) := by
  rw [ofOutput]
  split
  next d hfirst =>
    obtain ⟨before, after, hsplit, hbefore, hd⟩ := Diagnostic.find?_isError_eq_some_iff.mp hfirst
    exact .failed hsplit hbefore hd
  next hfirst =>
    have hnone := Diagnostic.find?_isError_eq_none_iff.mp hfirst
    split
    next hmap => exact .missing hnone hmap
    next mapText htext =>
      split
      next e he => exact .invalid hnone htext he
      next map hmap => exact .compiled hnone htext hmap

/-- An answer ends in the one way whose conditions hold. -/
theorem ofOutput_eq_iff {outcome : Except CompileStageError CompiledModule} :
    ofOutput source fileName output = outcome ↔ output.Outcome source fileName outcome := by
  constructor
  · rintro rfl
    exact outcome_ofOutput
  · intro h
    cases h with
    | failed hsplit hbefore hd =>
      have hfirst := Diagnostic.find?_isError_eq_some_iff.mpr ⟨_, _, hsplit, hbefore, hd⟩
      simp only [ofOutput, hfirst]
    | missing hnone hmap =>
      simp only [ofOutput, Diagnostic.find?_isError_eq_none_iff.mpr hnone, hmap]
    | invalid hnone htext he =>
      simp only [ofOutput, Diagnostic.find?_isError_eq_none_iff.mpr hnone, htext, he]
    | compiled hnone htext hmap =>
      simp only [ofOutput, Diagnostic.find?_isError_eq_none_iff.mpr hnone, htext, hmap]

end CompiledModule

/-! ## Compilations -/

/-- **The first error wins.** A compilation asks the compiler once and settles its answer, with any
options: the first diagnostic that is an error fails it, with the error that this diagnostic makes
and whatever else is in the answer; without one it fails for want of a map or for an invalid one,
and otherwise ends with the text, the diagnostics and the decoded map. -/
theorem compile_settled {m : Type → Type} [Monad m] (compiler : Compiler m)
    (input : CompilerInput) :
    ∃ settle : CompilerOutput → Except CompileStageError CompiledModule,
      (compile compiler input = compiler input >>= fun answer => pure (answer >>= settle)) ∧
        ∀ output outcome,
          settle output = outcome ↔ output.Outcome input.source input.fileName outcome := by
  refine ⟨CompiledModule.ofOutput input.source input.fileName, ?_, fun output outcome =>
    CompiledModule.ofOutput_eq_iff⟩
  rw [compile]
  congr 1
  funext answer
  cases answer <;> rfl

end MapChain
