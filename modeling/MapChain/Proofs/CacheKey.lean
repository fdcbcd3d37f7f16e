import MapChain.CacheKey
import MapChain.Config.Resolve
import MapChain.Proofs.Bytes
import MapChain.Proofs.Config.Layers
import MapChain.Proofs.Json.SameDocument

/-!
# What a cache key tells apart

The key of the downstream transformer may hold anything, NUL characters too, but the document that
comes after it is written without control characters. So the last NUL byte of what is hashed stands
before the document, and the rest of what is hashed ends in a text that never changes.

Main result: `CacheKey.ofDocument_eq_iff_sameDocument`.
-/

namespace MapChain

/-- The document of a configuration is sorted, with every value in it. -/
theorem Config.sorted_of_resolve {fs : FileSystem} {r : Resolver}
    {c : ResolvedConfig} (h : resolve fs r = .ok c) : (Json.object c.document).Sorted := by
  unfold resolve at h
  split at h
  next => cases h
  next =>
    split at h
    next => cases h
    next hload =>
      unfold ofDocument at h
      split at h
      next => cases h
      next =>
        cases h
        exact sorted_of_load hload

/-- Lists are the same when they are before and behind the last separator. -/
theorem append_cons_inj_of_notMem {α : Type} {a : α} {l l' d d' : List α} (hd : a ∉ d)
    (hd' : a ∉ d') : l ++ a :: d = l' ++ a :: d' ↔ l = l' ∧ d = d' := by
  have hnone {m k : List α} {u : List α} (hm : a ∉ m) (heq : a :: m = u ++ a :: k) : u = [] := by
    cases u with
    | nil => rfl
    | cons b u =>
      -- The separator at the end of the longer part would stand in what has none of it
      rw [List.cons_append, List.cons.injEq] at heq
      exact absurd (heq.2 ▸ by simp) hm
  constructor
  · intro h
    obtain ⟨u, hl, hrest⟩ | ⟨u, hl, hrest⟩ := List.append_eq_append_iff.mp h
    · obtain rfl := hnone hd hrest
      exact ⟨by rw [hl, List.append_nil], (List.cons.inj hrest).2⟩
    · obtain rfl := hnone hd' hrest
      exact ⟨by rw [hl, List.append_nil], (List.cons.inj hrest).2.symm⟩
  · rintro ⟨rfl, rfl⟩
    rfl

namespace CacheKey

open Config

/-- What is hashed tells the key of the downstream transformer, where none counts as an empty one,
and the document. -/
theorem preimage_eq_preimage_iff (key key' : Option String) (v v' : Json) :
    preimage key v.compact = preimage key' v'.compact ↔
      key.getD "" = key'.getD "" ∧ v.compact = v'.compact := by
  -- The byte before the document is in no document
  have hdocument (w : Json) := zero_notMem_toUTF8 w.le_toNat_of_mem_compact
  rw [preimage, preimage, append_cons_inj_of_notMem (hdocument v) (hdocument v'),
    List.append_left_inj, toUTF8_toList_inj, toUTF8_toList_inj]

/-- **What a cache key tells apart.** What is hashed for two keys of the downstream transformer and
two merged documents is the same exactly when the keys are and the documents are, an absent key
counting as an empty one. So the cache keys are, unless the hash function takes the one for the
other. -/
theorem ofDocument_eq_iff_sameDocument (key key' : Option String) {c c' : ResolvedConfig}
    (hc : (Json.object c.document).Sorted) (hc' : (Json.object c'.document).Sorted) :
    (preimage key c.documentText = preimage key' c'.documentText ↔
      key.getD "" = key'.getD "" ∧
        Json.SameDocument (.object c.document) (.object c'.document)) ∧
    ((Blake3.hexHash (preimage key c.documentText) =
        Blake3.hexHash (preimage key' c'.documentText) →
      preimage key c.documentText = preimage key' c'.documentText) →
    (ofDocument key c.documentText = ofDocument key' c'.documentText ↔
      key.getD "" = key'.getD "" ∧
        Json.SameDocument (.object c.document) (.object c'.document))) := by
  have hpreimage : preimage key c.documentText = preimage key' c'.documentText ↔
      key.getD "" = key'.getD "" ∧
        Json.SameDocument (.object c.document) (.object c'.document) := by
    rw [ResolvedConfig.documentText, ResolvedConfig.documentText, preimage_eq_preimage_iff,
      Json.compact_eq_compact_iff_sameDocument hc hc']
  refine ⟨hpreimage, fun hcollision => ?_⟩
  rw [← hpreimage, ofDocument, ofDocument]
  exact ⟨hcollision, congrArg Blake3.hexHash⟩

/-- A configuration of a document without options. -/
def plainConfig (document : Fields) : ResolvedConfig :=
  ⟨⟨"/app/tsconfig.json"⟩, document, .empty, []⟩

/-- An absent key counts as an empty one, and a key that ends like what stands behind it is told
from a shorter one. -/
theorem ofDocument_absent_key :
    let c := plainConfig [("files", .array [.ofUInt32 1])]
    let key := "\x00ts-transformer@0.9.5"
    preimage none c.documentText = preimage (some "") c.documentText ∧
      ofDocument none c.documentText = ofDocument (some "") c.documentText ∧
      preimage (some key) c.documentText ≠ preimage none c.documentText := by
  intro c key
  have hsorted : (Json.object c.document).Sorted := Json.sorted_of_sorted_eq (by decide +kernel)
  obtain ⟨hpreimage, hkey⟩ := ofDocument_eq_iff_sameDocument none (some "") hsorted hsorted
  have hsame := hpreimage.mpr ⟨rfl, .refl _⟩
  refine ⟨hsame, (hkey fun _ => hsame).mpr ⟨rfl, .refl _⟩, fun h => ?_⟩
  obtain ⟨hpreimage', -⟩ := ofDocument_eq_iff_sameDocument (some key) none hsorted hsorted
  exact absurd (hpreimage'.mp h).1 (by decide)

end CacheKey

end MapChain
