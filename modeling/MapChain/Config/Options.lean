import MapChain.Json.Shape

/-!
# Compiler options

The options of a compilation, in the order of the document they come from. Their values are not
interpreted here: the compiler does that.

Composition depends on three of them, which are forced: maps are written, with the sources in them,
and not into the compiled text. Two others, about the interplay of module systems, are checked for
combinations that compile but misbehave.
-/

namespace MapChain

/-- Options in document order. -/
structure CompilerOptions where
  entries : List (String × Json)

namespace CompilerOptions

/-! ## A map in insertion order -/

/-- No options. -/
def empty : CompilerOptions := ⟨[]⟩

/-- The value of an option. -/
def get? (o : CompilerOptions) (name : String) : Option Json := o.entries.lookup name

/-- The value of an option that is a boolean. -/
def getBool? (o : CompilerOptions) (name : String) : Option Bool := (o.get? name).bind Json.bool?

/-- Sets an option among entries: in its place if it is there, else at the end. -/
def insertEntry (name : String) (value : Json) : List (String × Json) → List (String × Json)
  | [] => [(name, value)]
  | (n, v) :: entries =>
    if n = name then (n, value) :: entries else (n, v) :: insertEntry name value entries

/-- Sets an option. -/
def insert (o : CompilerOptions) (name : String) (value : Json) : CompilerOptions :=
  ⟨insertEntry name value o.entries⟩

/-- Looking up an entry that was just set finds its value, and any other entry is as before. -/
theorem lookup_insertEntry (entries : List (String × Json)) (name : String) (value : Json)
    (other : String) :
    (insertEntry name value entries).lookup other =
      if other = name then some value else entries.lookup other := by
  induction entries with
  | nil => simp [insertEntry, Association.lookup_cons]
  | cons entry entries ih =>
    obtain ⟨n, v⟩ := entry
    unfold insertEntry
    split
    next h =>
      subst h
      simp only [Association.lookup_cons]
      split <;> rfl
    next h =>
      rw [Association.lookup_cons, ih, Association.lookup_cons]
      by_cases ho : other = n
      · subst ho
        simp [h]
      · simp [ho]

/-- Setting an option changes the value of that option and of no other. -/
theorem get?_insert (o : CompilerOptions) (name : String) (value : Json) (other : String) :
    (o.insert name value).get? other = if other = name then some value else o.get? other :=
  lookup_insertEntry o.entries name value other

/-- Removes an option; the others keep their order. -/
def erase (o : CompilerOptions) (name : String) : CompilerOptions :=
  ⟨o.entries.filter (·.1 != name)⟩

/-- Removing an option removes that option and no other. -/
theorem get?_erase (o : CompilerOptions) (name other : String) :
    (o.erase name).get? other = if other = name then none else o.get? other :=
  Association.lookup_filter o.entries name other

/-- The number of options. -/
def size (o : CompilerOptions) : Nat := o.entries.length

/-- Options from entries in order; a repeated name keeps its first place and its last value. -/
def ofList (entries : List (String × Json)) : CompilerOptions :=
  entries.foldl (fun o (name, value) => o.insert name value) empty

/-! ## Reading and writing -/

/-- Options from the members of an object. -/
def ofFields (fields : Fields) : CompilerOptions := ⟨fields⟩

/-- Reads options from a JSON value. -/
def ofJson : Json.ShapeReader CompilerOptions := fun v => (Json.Shape.fields v).map ofFields

/-- Reads options from the tree of a text, in the order of the text. -/
def ofTree? : Json.Tree → Option CompilerOptions
  | t@(.object members) =>
    if t.depth ≤ Json.maxDepth then (Json.membersOfTrees? members).map ofList else none
  | _ => none

/-- Reads options from a text. -/
def ofText (text : String) : Json.Shaped CompilerOptions :=
  Json.Shape.require ((Json.Tree.ofText? text.toList).bind ofTree?)

/-- The options as JSON, in their order. -/
def toJson (o : CompilerOptions) : Json := .object o.entries

/-! ## Forced options -/

/-- The options with those that composition depends on. -/
def forced (o : CompilerOptions) : CompilerOptions :=
  ((o.insert "sourceMap" (.bool true)).insert "inlineSources" (.bool true)).erase "inlineSourceMap"

end CompilerOptions

/-! ## Advisories -/

/-- A combination of module options that compiles but misbehaves. -/
inductive Advisory where
  | syntheticDefaultsWithoutInterop
  | interopWithoutSyntheticDefaults
  deriving DecidableEq, Repr

/-- The advisory in words. -/
def Advisory.message : Advisory → String
  | .syntheticDefaultsWithoutInterop =>
    "'allowSyntheticDefaultImports' is enabled without 'esModuleInterop'; " ++
      "default imports of CommonJS modules will type-check but be undefined at runtime"
  | .interopWithoutSyntheticDefaults =>
    "'esModuleInterop' is enabled but 'allowSyntheticDefaultImports' is set to false; " ++
      "the emitted interop helpers will not match what the type checker accepts"

/-- When an advisory is due, by what each option is set to. A value that is no boolean counts for
neither. -/
def Advisory.IsDue (value? : String → Option Json) : Advisory → Prop
  | .syntheticDefaultsWithoutInterop =>
    value? "allowSyntheticDefaultImports" = some (.bool true) ∧
      value? "esModuleInterop" ≠ some (.bool true)
  | .interopWithoutSyntheticDefaults =>
    value? "esModuleInterop" = some (.bool true) ∧
      value? "allowSyntheticDefaultImports" = some (.bool false)

/-- The advisories that options give rise to. -/
def CompilerOptions.advisories (o : CompilerOptions) : List Advisory :=
  let interop := o.getBool? "esModuleInterop"
  let synthetic := o.getBool? "allowSyntheticDefaultImports"
  (if synthetic = some true ∧ interop ≠ some true then
    [Advisory.syntheticDefaultsWithoutInterop] else []) ++
  (if interop = some true ∧ synthetic = some false then
    [Advisory.interopWithoutSyntheticDefaults] else [])

namespace CompilerOptions

theorem getBool?_eq_some_iff {o : CompilerOptions} {name : String} {b : Bool} :
    o.getBool? name = some b ↔ o.get? name = some (.bool b) := by
  rw [getBool?]
  cases o.get? name with
  | none => simp
  | some v => cases v <;> simp [Json.bool?]

/-- **Options give rise to the advisories that are due**, and to no others. -/
theorem mem_advisories_iff {o : CompilerOptions} {a : Advisory} :
    a ∈ o.advisories ↔ a.IsDue o.get? := by
  cases a <;> simp [advisories, Advisory.IsDue, ← getBool?_eq_some_iff]

/-- The two advisories exclude each other. -/
theorem length_advisories_le (o : CompilerOptions) : o.advisories.length ≤ 1 := by
  rw [advisories]
  split
  next h => simp [h.1]
  next => split <;> simp

end CompilerOptions

end MapChain
