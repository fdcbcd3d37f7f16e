import MapChain.Proofs.Files.Canonical

/-!
# Walking along paths

Where a path leads is found piece by piece, so where a joined path leads can be told from where its
first part leads, however that is spelled. Where a walk from the root ends can be walked to by its
own names, which are the pieces of its path.

## Layers

- **Pieces**: how text with separators is cut.
- **Walks**: a walk in two parts, and pieces that lead nowhere else.
- **Joined paths**: `destination?_join`.
- **Locations that are reached**: `Reachable`, kept by every step; `destination?_pathOf`.
-/

namespace MapChain

/-! ## Pieces -/

namespace Path

theorem pieces_ne_nil (text : List Char) : pieces text ≠ [] := by
  cases text with
  | nil => exact List.cons_ne_nil _ _
  | cons c text =>
    rw [pieces]
    split
    · exact List.cons_ne_nil _ _
    · split <;> exact List.cons_ne_nil _ _

/-- A separator is cut at. -/
theorem pieces_append_separator (text rest : List Char) :
    pieces (text ++ separator :: rest) = pieces text ++ pieces rest := by
  induction text with
  | nil => simp only [List.nil_append, pieces, if_true, List.singleton_append]
  | cons c text ih =>
    rw [List.cons_append, pieces, pieces, ih]
    split
    next => rfl
    next =>
      cases h : pieces text with
      | nil => exact absurd h (pieces_ne_nil text)
      | cons first others => rfl

/-- What holds no separator is one piece. -/
theorem pieces_of_notMem {text : List Char} (h : separator ∉ text) : pieces text = [text] := by
  induction text with
  | nil => rfl
  | cons c text ih =>
    rw [List.mem_cons, not_or] at h
    rw [pieces, if_neg (Ne.symm h.1), ih h.2]

/-- Pieces are put together and cut again. -/
theorem pieces_ofPieces {ps : List (List Char)} (hne : ps ≠ [])
    (h : ∀ piece ∈ ps, separator ∉ piece) : pieces (ofPieces ps) = ps := by
  induction ps with
  | nil => exact absurd rfl hne
  | cons piece ps ih =>
    obtain ⟨hpiece, hps⟩ := List.forall_mem_cons.mp h
    cases ps with
    | nil =>
      have hone : ofPieces [piece] = piece := by simp [ofPieces]
      rw [hone, pieces_of_notMem hpiece]
    | cons second ps =>
      have htwo : ofPieces (piece :: second :: ps) =
          piece ++ separator :: ofPieces (second :: ps) := by
        simp [ofPieces]
      rw [htwo, pieces_append_separator, pieces_of_notMem hpiece, ih (List.cons_ne_nil _ _) hps,
        List.singleton_append]

end Path

namespace FileSystem

variable {fs : FileSystem}

/-! ## Walks -/

theorem walk?_cons (l : Location) (piece : String) (ps : List String) :
    fs.walk? l (piece :: ps) = (fs.step? l piece).bind (fs.walk? · ps) := by
  rw [walk?]
  cases fs.step? l piece <;> rfl

theorem walk?_append (l : Location) (ps qs : List String) :
    fs.walk? l (ps ++ qs) = (fs.walk? l ps).bind (fs.walk? · qs) := by
  induction ps generalizing l with
  | nil => rfl
  | cons piece ps ih =>
    rw [List.cons_append, walk?_cons, walk?_cons, Option.bind_assoc]
    exact congrArg _ (funext ih)

theorem isDirectoryAt_of_step? {l next : Location} {piece : String}
    (h : fs.step? l piece = some next) : fs.isDirectoryAt l := by
  rw [step?, Option.ite_none_right_eq_some] at h
  exact h.1

/-- A piece that adds nothing asks for a directory and stays there. -/
theorem step?_void {l : Location} {piece : String} (h : piece = "" ∨ piece = ".") :
    fs.step? l piece = if fs.isDirectoryAt l then some l else none := by
  rw [step?, if_pos h]

/-- An empty piece before others adds nothing, since they ask for a directory too. -/
theorem walk?_empty_cons (l : Location) (piece : String) (ps : List String) :
    fs.walk? l ("" :: piece :: ps) = fs.walk? l (piece :: ps) := by
  rw [walk?_cons, step?_void (.inl rfl)]
  split
  next => rfl
  next h =>
    rw [walk?_cons, step?, if_neg h]
    rfl

/-! ## Joined paths -/

theorem route_ne_nil (p : Path) : route p ≠ [] := by
  rw [route, ne_eq, List.map_eq_nil_iff]
  exact Path.pieces_ne_nil _

theorem route_append_separator {p : Path} {first rest : List Char}
    (h : p.text.toList = first ++ Path.separator :: rest) :
    route p = route ⟨String.ofList first⟩ ++ route ⟨String.ofList rest⟩ := by
  simp only [route, h, Path.pieces_append_separator, List.map_append, String.toList_ofList]

theorem destination?_eq_walk? {p : Path} (hp : p.text ≠ "") :
    fs.destination? p = fs.walk? (fs.origin p) (route p) := by
  rw [destination?, if_neg hp]

/-- A path that begins like another one starts from where that one does. -/
theorem origin_of_text (fs : FileSystem) {p q : Path} (hp : p.text ≠ "") {rest : String}
    (h : q.text = p.text ++ rest) : q.text ≠ "" ∧ fs.origin q = fs.origin p := by
  -- Where a path starts from is told by its first character
  have hlist : p.text.toList ≠ [] := by simpa using hp
  refine ⟨by simp [h, hp], ?_⟩
  rw [origin, origin, Path.isAbsolute, Path.isAbsolute, h, String.toList_append,
    List.head?_append_of_ne_nil _ hlist]

/-- A relative text is put behind a path with one separator between them. -/
theorem join_cases {p : Path} (hp : p.text ≠ "") {text : String}
    (htext : (Path.mk text).isAbsolute = false) :
    (∃ first, p.text.toList = first ++ [Path.separator] ∧ p.join text = ⟨p.text ++ text⟩) ∨
      p.join text = ⟨p.text ++ (String.singleton Path.separator ++ text)⟩ := by
  rw [Path.join, if_neg (Bool.eq_false_iff.mp htext)]
  split
  next c hlast =>
    split
    next hc =>
      subst hc
      obtain ⟨first, hfirst⟩ := List.getLast?_eq_some_iff.mp hlast
      exact .inl ⟨first, hfirst, rfl⟩
    next => exact .inr (by rw [String.append_assoc])
  next hlast =>
    rw [List.getLast?_eq_none_iff] at hlast
    exact absurd (String.toList_eq_nil_iff.mp hlast) hp

/-- Where a relative text leads from a path can be told from where the path leads. -/
theorem destination?_join {p : Path} (hp : p.text ≠ "") {text : String}
    (htext : (Path.mk text).isAbsolute = false) :
    fs.destination? (p.join text) = (fs.destination? p).bind (fs.walk? · (route ⟨text⟩)) := by
  obtain ⟨first, hfirst, hjoin⟩ | hjoin := join_cases hp htext
  · -- The path ends in an empty piece, which adds nothing to what follows it
    obtain ⟨hne, horigin⟩ := origin_of_text fs hp (congrArg Path.text hjoin)
    have hchars : (p.join text).text.toList = first ++ Path.separator :: text.toList := by
      rw [hjoin, String.toList_append, hfirst, List.append_assoc, List.singleton_append]
    have hroute := route_append_separator hchars
    rw [String.ofList_toList] at hroute
    have hroute' : route p = route ⟨String.ofList first⟩ ++ [""] := route_append_separator hfirst
    rw [destination?_eq_walk? hne, destination?_eq_walk? hp, horigin, hroute, hroute', walk?_append,
      walk?_append, Option.bind_assoc]
    refine congrArg _ (funext fun l => ?_)
    obtain ⟨piece, ps, hpieces⟩ := List.exists_cons_of_ne_nil (route_ne_nil ⟨text⟩)
    rw [hpieces, ← walk?_append, List.singleton_append, walk?_empty_cons]
  · obtain ⟨hne, horigin⟩ := origin_of_text fs hp (congrArg Path.text hjoin)
    have hchars : (p.join text).text.toList =
        p.text.toList ++ Path.separator :: text.toList := by
      rw [hjoin, String.toList_append, String.toList_append, String.toList_singleton,
        List.singleton_append]
    have hroute := route_append_separator hchars
    rw [String.ofList_toList, String.ofList_toList] at hroute
    rw [destination?_eq_walk? hne, destination?_eq_walk? hp, horigin, hroute, walk?_append]

/-- Text right after a joined path is text right after what is joined. -/
theorem append_join (p : Path) {text rest : String} (h : (Path.mk text).isAbsolute = false)
    (h' : (Path.mk (text ++ rest)).isAbsolute = false) :
    (p.join text).append rest = p.join (text ++ rest) := by
  rw [Path.join, Path.join, if_neg (Bool.eq_false_iff.mp h), if_neg (Bool.eq_false_iff.mp h'),
    Path.append]
  split
  next => split <;> simp [String.append_assoc]
  next => rfl

/-! ## Locations that are reached -/

/-- A name that a walk goes into: it is not empty, has no separator in it and does not stand for
another directory. -/
structure IsStep (name : String) : Prop where
  ne_void : ¬ (name = "" ∨ name = ".")
  ne_parent : name ≠ ".."
  notMem : Path.separator ∉ name.toList

/-- A location that can be walked to from the root by its own names. -/
structure Reachable (fs : FileSystem) (l : Location) : Prop where
  isStep : ∀ name ∈ l, IsStep name
  walk : fs.walk? [] l = some l

theorem reachable_nil : fs.Reachable [] := ⟨nofun, rfl⟩

theorem step?_name {l : Location} {name : String} (h : IsStep name) :
    fs.step? l name = if fs.isDirectoryAt l ∧ (fs.lookup? (l ++ [name])).isSome then
      some (l ++ [name]) else none := by
  rw [step?, if_neg h.ne_void, if_neg h.ne_parent]
  by_cases hdirectory : fs.isDirectoryAt l <;> simp [hdirectory]

/-- What is above a location that is reached is reached, and a step leads down from it. -/
theorem Reachable.of_concat {l : Location} {name : String} (h : fs.Reachable (l ++ [name])) :
    fs.Reachable l ∧ fs.step? l name = some (l ++ [name]) := by
  have hname : IsStep name := h.isStep name (by simp)
  obtain ⟨k, hk, hstep⟩ := Option.bind_eq_some_iff.mp ((walk?_append [] l [name]).symm.trans h.walk)
  rw [walk?_cons] at hstep
  obtain ⟨next, hnext, hend⟩ := Option.bind_eq_some_iff.mp hstep
  cases hend
  have hkl : k = l := by
    rw [step?_name hname, Option.ite_none_right_eq_some] at hnext
    exact (List.append_inj' (Option.some.inj hnext.2) rfl).1
  subst hkl
  exact ⟨⟨fun m hm => h.isStep m (List.mem_append_left _ hm), hk⟩, hnext⟩

theorem Reachable.dropLast {l : Location} (h : fs.Reachable l) : fs.Reachable l.dropLast := by
  obtain rfl | ⟨l, name, rfl⟩ := l.eq_nil_or_concat
  · exact h
  · rw [List.concat_eq_append] at h ⊢
    rw [List.dropLast_concat]
    exact h.of_concat.1

theorem Reachable.step? {l next : Location} {piece : String} (h : fs.Reachable l)
    (hpiece : Path.separator ∉ piece.toList) (hstep : fs.step? l piece = some next) :
    fs.Reachable next := by
  rw [FileSystem.step?] at hstep
  split at hstep
  next hdirectory =>
    split at hstep
    next =>
      cases hstep
      exact h
    next hvoid =>
      split at hstep
      next =>
        cases hstep
        exact h.dropLast
      next hparent =>
        -- Only here the location gets longer, by a name that was looked up
        rw [Option.ite_none_right_eq_some] at hstep
        cases hstep.2
        have hname : IsStep piece := ⟨hvoid, hparent, hpiece⟩
        refine ⟨List.forall_mem_append.mpr ⟨h.isStep, List.forall_mem_singleton.mpr hname⟩, ?_⟩
        rw [walk?_append, h.walk, Option.bind_some, walk?_cons, step?_name hname,
          if_pos ⟨hdirectory, hstep.1⟩]
        rfl
  next => cases hstep

theorem Reachable.walk? {l m : Location} {ps : List String} (h : fs.Reachable l)
    (hps : ∀ piece ∈ ps, Path.separator ∉ piece.toList) (hwalk : fs.walk? l ps = some m) :
    fs.Reachable m := by
  induction ps generalizing l with
  | nil =>
    cases hwalk
    exact h
  | cons piece ps ih =>
    obtain ⟨hpiece, hrest⟩ := List.forall_mem_cons.mp hps
    rw [walk?_cons, Option.bind_eq_some_iff] at hwalk
    obtain ⟨next, hstep, hwalk⟩ := hwalk
    exact ih (h.step? hpiece hstep) hrest hwalk

/-- An absolute path leads to a location that is reached. -/
theorem reachable_of_destination? {p : Path} (habs : p.isAbsolute) {l : Location}
    (h : fs.destination? p = some l) : fs.Reachable l := by
  rw [destination?, Option.ite_none_left_eq_some, origin, if_pos habs] at h
  exact reachable_nil.walk? (fun _ => separator_notMem_of_mem_route) h.2

theorem toList_text_pathOf (l : Location) :
    (pathOf l).text.toList = Path.separator :: Path.ofPieces (l.map String.toList) := by
  simp [pathOf, Path.ofPieces]

theorem pieces_ofPieces_names {l : Location} (h : ∀ name ∈ l, IsStep name) (hne : l ≠ []) :
    Path.pieces (Path.ofPieces (l.map String.toList)) = l.map String.toList := by
  refine Path.pieces_ofPieces (by simpa using hne) ?_
  exact List.forall_mem_map.mpr fun name hname => (h name hname).notMem

theorem route_pathOf {l : Location} (h : ∀ name ∈ l, IsStep name) (hne : l ≠ []) :
    route (pathOf l) = "" :: l := by
  have hchars : (pathOf l).text.toList =
      [] ++ Path.separator :: Path.ofPieces (l.map String.toList) := toList_text_pathOf l
  rw [route_append_separator hchars, route, route, String.toList_ofList, String.toList_ofList,
    pieces_ofPieces_names h hne, List.map_map]
  simp [Path.pieces, Function.comp_def]

theorem isAbsolute_pathOf (l : Location) : (pathOf l).isAbsolute := by
  simp [Path.isAbsolute, pathOf]

/-- **The path of a location that is reached leads to it.** -/
theorem destination?_pathOf {l : Location} (h : fs.Reachable l) :
    fs.destination? (pathOf l) = some l := by
  have hne : (pathOf l).text ≠ "" := by simp [pathOf]
  rw [destination?_eq_walk? hne, origin, if_pos (isAbsolute_pathOf l)]
  by_cases hl : l = []
  · subst hl
    rfl
  · -- The path begins with a separator, so its first piece is empty
    rw [route_pathOf h.isStep hl]
    obtain ⟨name, names, rfl⟩ := List.exists_cons_of_ne_nil hl
    rw [walk?_empty_cons, h.walk]

end FileSystem

end MapChain
