import MapChain.Pipeline
import MapChain.Proofs.Json.Shape

/-!
# Two conventions for arguments

The arguments of a call come as an object with a name for each, or as an array with a place for each,
where the options may be left out in both. What is read depends on what is given and not on the
convention, and options that are given as null are not left out.

## Layers

- **Shapes in turn**: `firstOf` reads a value in the first shape that it has.
- **What is given**: `Gives` says it of a value, and `ofJson_eq_ok_iff` reads it.
- **Conventions**: a shape for an object and two for an array. No value has two of them, so that
  trying them in turn, in any order, is reading arguments (`firstOf_eq_ofJson`).

Main result: `ofJson_conventions`.
-/

namespace MapChain

/-! ## Shapes in turn -/

namespace Json.Shape

variable {α : Type}

/-- Reads a value in the first of several shapes that it has. -/
def firstOf : List (ShapeReader α) → ShapeReader α
  | [], _ => .error .mismatch
  | read :: reads, v =>
    match read v with
    | .ok a => .ok a
    | .error _ => firstOf reads v

/-- An outcome is a failure for no other reason than a wrong shape. -/
def OnlyMismatch (outcome : Shaped α) : Prop := ∀ e, outcome = .error e → e = .mismatch

theorem onlyMismatch_ok (a : α) : OnlyMismatch (.ok a) := nofun

theorem onlyMismatch_mismatch : OnlyMismatch (.error .mismatch : Shaped α) :=
  fun _ h => (Except.error.inj h).symm

theorem onlyMismatch_require (o : Option α) : OnlyMismatch (require o) := by
  cases o with
  | none => exact onlyMismatch_mismatch
  | some a => exact onlyMismatch_ok a

theorem onlyMismatch_required_string (members : Fields) (name : String) :
    OnlyMismatch (required members name string) := by
  unfold required
  split
  next v _ => exact onlyMismatch_require v.string?
  next => exact onlyMismatch_mismatch

theorem OnlyMismatch.bind {β : Type} {outcome : Shaped α} {f : α → Shaped β}
    (h : OnlyMismatch outcome) (hf : ∀ a, OnlyMismatch (f a)) : OnlyMismatch (outcome >>= f) := by
  cases outcome with
  | error e =>
    obtain rfl := h e rfl
    exact onlyMismatch_mismatch
  | ok a => exact hf a

/-- Trying shapes in turn comes to an outcome that each shape leads to, and that some shape leads to
if it is a success. -/
theorem firstOf_eq {reads : List (ShapeReader α)} {v : Json} {outcome : Shaped α}
    (hsound : ∀ read ∈ reads, ∀ a, read v = .ok a → outcome = .ok a)
    (hcomplete : ∀ a, outcome = .ok a → ∃ read ∈ reads, read v = .ok a)
    (hmismatch : OnlyMismatch outcome) : firstOf reads v = outcome := by
  induction reads with
  | nil =>
    cases outcome with
    | error e => rw [hmismatch e rfl, firstOf]
    | ok a =>
      obtain ⟨read, hmem, -⟩ := hcomplete a rfl
      cases hmem
  | cons read reads ih =>
    rw [firstOf]
    split
    next a hread => exact (hsound read List.mem_cons_self a hread).symm
    next e hread =>
      refine ih (fun other hmem => hsound other (List.mem_cons_of_mem _ hmem)) fun a ha => ?_
      -- The first shape has failed, so it is another one that leads to the success
      obtain ⟨other, hmem, hother⟩ := hcomplete a ha
      rcases List.mem_cons.mp hmem with rfl | hmem
      · rw [hread] at hother
        cases hother
      · exact ⟨other, hmem, hother⟩

end Json.Shape

namespace TransformArgs

open Json.Shape

/-! ## What is given -/

/-- A value gives a source, a file name and perhaps options: in this order in an array, or under
their names in an object, where other members do not matter. -/
inductive Gives : Json → String → String → Option Json → Prop
  | listed (source fileName : String) (options : Option Json) :
      Gives (.array (.string source :: .string fileName :: options.toList)) source fileName options
  | named {members : Fields} {source fileName : String}
      (hsource : members.get? "src" = some (.string source))
      (hfileName : members.get? "filename" = some (.string fileName)) :
      Gives (.object members) source fileName (members.get? "options")

theorem reads_self : Reads .ok id := fun _ _ => by rw [Except.ok.injEq, id]

theorem ofJson_object_eq_ok_iff {members : Fields} {args : TransformArgs} :
    ofJson (.object members) = .ok args ↔
      members.get? "src" = some (.string args.source) ∧
        members.get? "filename" = some (.string args.fileName) ∧
        (members.get? "options").getD noOptions = args.options := by
  simp only [ofJson, bind_eq_ok_iff, pure_eq_ok_iff, reads_string.required, reads_self.defaulted,
    id]
  constructor
  · rintro ⟨source, hsource, fileName, hfileName, options, hoptions, rfl⟩
    exact ⟨hsource, hfileName, hoptions⟩
  · rintro ⟨hsource, hfileName, hoptions⟩
    exact ⟨_, hsource, _, hfileName, _, hoptions, rfl⟩

theorem ofJson_array_eq_ok_iff {items : List Json} {args : TransformArgs} :
    ofJson (.array items) = .ok args ↔
      ∃ options : Option Json, options.getD noOptions = args.options ∧
        items = .string args.source :: .string args.fileName :: options.toList := by
  obtain ⟨source, fileName, options⟩ := args
  rw [Option.exists]
  -- Only arrays of two and of three items are looked into
  match items with
  | [] | [_] | _ :: _ :: _ :: _ :: _ => simp [ofJson]
  | [a, b] =>
    simp only [ofJson, bind_eq_ok_iff, pure_eq_ok_iff, reads_string _ _]
    simp [eq_comm, and_comm, and_left_comm]
  | [a, b, o] =>
    simp only [ofJson, bind_eq_ok_iff, pure_eq_ok_iff, reads_string _ _]
    simp [eq_comm, and_comm, and_left_comm]

/-- Arguments are read from just the values that give them, with no options in place of those that
are left out. -/
theorem ofJson_eq_ok_iff {v : Json} {args : TransformArgs} :
    ofJson v = .ok args ↔
      ∃ options : Option Json, options.getD noOptions = args.options ∧
        Gives v args.source args.fileName options := by
  cases v with
  | array items =>
    rw [ofJson_array_eq_ok_iff]
    constructor
    · rintro ⟨options, hoptions, rfl⟩
      exact ⟨options, hoptions, .listed _ _ options⟩
    · rintro ⟨options, hoptions, h⟩
      cases h
      exact ⟨options, hoptions, rfl⟩
  | object members =>
    rw [ofJson_object_eq_ok_iff]
    constructor
    · rintro ⟨hsource, hfileName, hoptions⟩
      exact ⟨_, hoptions, .named hsource hfileName⟩
    · rintro ⟨_, hoptions, h⟩
      cases h with
      | named hsource hfileName => exact ⟨hsource, hfileName, hoptions⟩
  | _ =>
    constructor
    · intro h
      cases h
    · rintro ⟨_, -, h⟩
      cases h

/-! ## Conventions -/

/-- Reads an object with a name for each argument. -/
def named : Json.ShapeReader TransformArgs
  | .object members => do
    let source ← required members "src" string
    let fileName ← required members "filename" string
    let options ← defaulted members "options" noOptions .ok
    return { source, fileName, options }
  | _ => .error .mismatch

/-- Reads an array with a place for each argument. -/
def listed : Json.ShapeReader TransformArgs
  | .array [source, fileName, options] => do
    return ⟨← string source, ← string fileName, options⟩
  | _ => .error .mismatch

/-- Reads an array in which the options are left out. -/
def listedWithoutOptions : Json.ShapeReader TransformArgs
  | .array [source, fileName] => do return ⟨← string source, ← string fileName, noOptions⟩
  | _ => .error .mismatch

/-- The shapes that arguments come in, in the order in which they are tried. -/
def conventions : List (Json.ShapeReader TransformArgs) :=
  [named, listed, listedWithoutOptions]

theorem ofJson_of_convention {read : Json.ShapeReader TransformArgs} (hread : read ∈ conventions)
    {v : Json} {args : TransformArgs} (h : read v = .ok args) : ofJson v = .ok args := by
  simp only [conventions, List.mem_cons, List.not_mem_nil, or_false] at hread
  rcases hread with rfl | rfl | rfl
  · unfold named at h
    split at h
    · exact h
    · cases h
  · unfold listed at h
    split at h
    · exact h
    · cases h
  · unfold listedWithoutOptions at h
    split at h
    · exact h
    · cases h

theorem exists_convention {v : Json} {args : TransformArgs} (h : ofJson v = .ok args) :
    ∃ read ∈ conventions, read v = .ok args := by
  unfold ofJson at h
  split at h
  · exact ⟨named, by simp [conventions], h⟩
  · exact ⟨listed, by simp [conventions], h⟩
  · exact ⟨listedWithoutOptions, by simp [conventions], h⟩
  · cases h

/-- A value that gives no arguments is of a wrong shape, whatever is wrong with it. -/
theorem onlyMismatch_ofJson (v : Json) : OnlyMismatch (ofJson v) := by
  unfold ofJson
  split
  next members =>
    have hoptions : OnlyMismatch (defaulted members "options" noOptions .ok) := by
      unfold defaulted
      split <;> exact onlyMismatch_ok _
    apply (onlyMismatch_required_string members "src").bind
    intro source
    apply (onlyMismatch_required_string members "filename").bind
    intro fileName
    exact hoptions.bind fun options => onlyMismatch_ok _
  next source fileName options =>
    apply (onlyMismatch_require source.string?).bind
    intro text
    exact (onlyMismatch_require fileName.string?).bind fun name => onlyMismatch_ok _
  next source fileName =>
    apply (onlyMismatch_require source.string?).bind
    intro text
    exact (onlyMismatch_require fileName.string?).bind fun name => onlyMismatch_ok _
  next => exact onlyMismatch_mismatch

/-- Trying the conventions one after the other, in any order, is reading arguments: no value is
read differently by two of them. -/
theorem firstOf_eq_ofJson {reads : List (Json.ShapeReader TransformArgs)}
    (hreads : reads.Perm conventions) (v : Json) : firstOf reads v = ofJson v := by
  apply firstOf_eq
  · intro read hread args h
    exact ofJson_of_convention (hreads.mem_iff.mp hread) h
  · intro args h
    obtain ⟨read, hread, h⟩ := exists_convention h
    exact ⟨read, hreads.mem_iff.mpr hread, h⟩
  · exact onlyMismatch_ofJson v

/-! ## Both conventions -/

/-- The items of an array can be arguments: there are two or three, and the first two are texts. -/
structure IsListed (items : List Json) : Prop where
  length : items.length = 2 ∨ items.length = 3
  source : ∃ s, items[0]? = some (.string s)
  fileName : ∃ s, items[1]? = some (.string s)

/-- The members of an object can be arguments: the source and the file name are texts. -/
structure IsNamed (members : Fields) : Prop where
  source : ∃ s, members.get? "src" = some (.string s)
  fileName : ∃ s, members.get? "filename" = some (.string s)

theorem exists_ofJson_array_iff {items : List Json} :
    (∃ args, ofJson (.array items) = .ok args) ↔ IsListed items := by
  simp only [ofJson_array_eq_ok_iff]
  constructor
  · rintro ⟨args, options, -, rfl⟩
    refine ⟨?_, ⟨args.source, rfl⟩, ⟨args.fileName, rfl⟩⟩
    cases options with
    | none => exact .inl rfl
    | some options => exact .inr rfl
  · rintro ⟨hlength, ⟨source, hsource⟩, fileName, hfileName⟩
    rcases hlength with hlength | hlength
    · obtain ⟨a, b, rfl⟩ := List.length_eq_two.mp hlength
      cases hsource
      cases hfileName
      exact ⟨⟨source, fileName, noOptions⟩, none, rfl, rfl⟩
    · obtain ⟨a, b, options, rfl⟩ := List.length_eq_three.mp hlength
      cases hsource
      cases hfileName
      exact ⟨⟨source, fileName, options⟩, some options, rfl, rfl⟩

theorem exists_ofJson_object_iff {members : Fields} :
    (∃ args, ofJson (.object members) = .ok args) ↔ IsNamed members := by
  simp only [ofJson_object_eq_ok_iff]
  constructor
  · rintro ⟨args, hsource, hfileName, -⟩
    exact ⟨⟨args.source, hsource⟩, ⟨args.fileName, hfileName⟩⟩
  · rintro ⟨⟨source, hsource⟩, fileName, hfileName⟩
    exact ⟨⟨source, fileName, _⟩, hsource, hfileName, rfl⟩

/-- Two values that give the same are read as the same. -/
theorem Gives.ofJson {v : Json} {source fileName : String} {options : Option Json}
    (h : Gives v source fileName options) :
    ofJson v = .ok ⟨source, fileName, options.getD noOptions⟩ :=
  ofJson_eq_ok_iff.mpr ⟨options, rfl, h⟩

/-- **Both conventions are one.** Arguments are read from the arrays of two or three items of which
the first two are texts, and from the objects in which the source and the file name are texts; trying
the shapes in turn, in any order, reads the same. An array and an object that give the same are read
as the same, whatever else is in the object: with the options that are given, null too, and with an
empty object for options that are left out. -/
theorem ofJson_conventions :
    (∀ v, (∃ args, ofJson v = .ok args) ↔ (∃ items, v = .array items ∧ IsListed items) ∨
      ∃ members, v = .object members ∧ IsNamed members) ∧
    (∀ reads, List.Perm reads conventions → ∀ v, firstOf reads v = ofJson v) ∧
    ∀ (source fileName : String) (members : Fields),
      members.get? "src" = some (.string source) →
      members.get? "filename" = some (.string fileName) →
        (∀ options, members.get? "options" = some options →
          ofJson (.object members) = .ok ⟨source, fileName, options⟩ ∧
          ofJson (.array [.string source, .string fileName, options]) =
            .ok ⟨source, fileName, options⟩) ∧
        (members.get? "options" = none →
          ofJson (.object members) = .ok ⟨source, fileName, .object []⟩ ∧
          ofJson (.array [.string source, .string fileName]) =
            .ok ⟨source, fileName, .object []⟩) := by
  refine ⟨fun v => ?_, fun reads hreads v => firstOf_eq_ofJson hreads v, ?_⟩
  · cases v with
    | array items => simp [exists_ofJson_array_iff]
    | object members => simp [exists_ofJson_object_iff]
    | _ => simp [ofJson]
  · intro source fileName members hsource hfileName
    have hnamed := (Gives.named hsource hfileName).ofJson
    constructor
    · intro options hoptions
      rw [hoptions] at hnamed
      exact ⟨hnamed, (Gives.listed source fileName (some options)).ofJson⟩
    · intro hoptions
      rw [hoptions] at hnamed
      exact ⟨hnamed, (Gives.listed source fileName none).ofJson⟩

end TransformArgs

end MapChain
