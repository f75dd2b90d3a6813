import ChainLint.FileTree
import ChainLint.Proofs.Text.Split

/-!
# ChainLint.Proofs.Files.Names

Paths and the texts that name them.

* `Path.Proper`: a path as normalising leaves it, none of whose components is empty, a step in
  place or up, or holds a separator.
* `resolve_toText`: the text of a proper path names that path, from wherever it is read, so two
  proper paths never share a text.
* `FileTree.Proper`: all paths of a tree are proper. Writing and removing at proper paths keep it
  so, and `proper_resolve` says that the paths texts name are.
-/

namespace ChainLint

/-! ## Proper paths -/

namespace Path

/-- One component of a normalised path. -/
def IsName (s : String) : Prop := s ≠ "" ∧ s ≠ "." ∧ s ≠ ".." ∧ '/' ∉ s.toList

instance : DecidablePred IsName := fun s =>
  inferInstanceAs (Decidable (s ≠ "" ∧ s ≠ "." ∧ s ≠ ".." ∧ '/' ∉ s.toList))

/-- Absolute and normalised. -/
def Proper (p : Parts) : Prop := ∀ s ∈ p, IsName s

instance : DecidablePred Proper := fun p => inferInstanceAs (Decidable (∀ s ∈ p, IsName s))

theorem walk_of_proper {p : Parts} (h : Proper p) (start : Parts) : walk start p = start ++ p := by
  induction p generalizing start with
  | nil => simp [walk]
  | cons s p ih =>
    obtain ⟨hempty, hhere, hup, -⟩ := h s List.mem_cons_self
    have hrest := ih (fun t ht => h t (List.mem_cons_of_mem s ht)) (start ++ [s])
    simp only [walk, List.foldl_cons, hempty, hhere, hup, or_self, if_false] at hrest ⊢
    rw [hrest, List.append_assoc, List.singleton_append]

theorem splitAt_joinWith {s : String} {p : Parts} (h : ∀ t ∈ s :: p, '/' ∉ t.toList) :
    Text.splitAt '/' (Text.joinWith "/" (s :: p)) = s :: p := by
  induction p generalizing s with
  | nil =>
    have hs := h s List.mem_cons_self
    simp [Text.joinWith, Text.splitAt, Text.splitChars_of_not_mem hs]
  | cons t p ih =>
    have hs := h s List.mem_cons_self
    have hrest := ih (fun u hu => h u (List.mem_cons_of_mem s hu))
    have hjoin : (Text.joinWith "/" (s :: t :: p)).toList
        = s.toList ++ '/' :: (Text.joinWith "/" (t :: p)).toList := by
      simp [Text.joinWith]
    rw [Text.splitAt, hjoin, Text.splitChars_append hs, List.map_cons, String.ofList_toList]
    exact congrArg (s :: ·) hrest

theorem components_toText (p : Parts) :
    components (toText p) = "" :: Text.splitAt '/' (Text.joinWith "/" p) := by
  have htext : (toText p).toList = [] ++ '/' :: (Text.joinWith "/" p).toList := by
    simp [toText]
  rw [components, Text.splitAt, htext, Text.splitChars_append List.not_mem_nil]
  rfl

theorem isAbsolute_toText (p : Parts) : isAbsolute (toText p) = true := by
  simp [isAbsolute, toText, Text.startsWith]

/-- From every directory, the text of a proper path names the path. -/
theorem resolve_toText {p : Parts} (h : Proper p) (base : Parts) : resolve base (toText p) = p := by
  rw [resolve, isAbsolute_toText, if_pos rfl, components_toText]
  cases p with
  | nil => decide
  | cons s p =>
    rw [splitAt_joinWith (fun t ht => (h t ht).2.2.2)]
    exact walk_of_proper h []

theorem toText_injective {p q : Parts} (hp : Proper p) (hq : Proper q)
    (h : toText p = toText q) : p = q := by
  rw [← resolve_toText hp [], h, resolve_toText hq []]

theorem proper_walk {start : Parts} (h : Proper start) {cs : List String}
    (hcs : ∀ c ∈ cs, '/' ∉ c.toList) : Proper (walk start cs) := by
  induction cs generalizing start with
  | nil => exact h
  | cons c cs ih =>
    rw [walk, List.foldl_cons]
    refine ih ?_ (fun d hd => hcs d (List.mem_cons_of_mem c hd))
    split
    · exact h
    · rename_i hstay
      split
      · exact fun s hs => h s ((List.dropLast_sublist start).subset hs)
      · rename_i hup
        intro s hs
        rcases List.mem_append.1 hs with hs | hs
        · exact h s hs
        · rw [List.mem_singleton.1 hs]
          exact ⟨fun e => hstay (.inl e), fun e => hstay (.inr e), hup, hcs c List.mem_cons_self⟩

/-- What a text names from a proper directory is proper. -/
theorem proper_resolve {base : Parts} (h : Proper base) (s : String) : Proper (resolve base s) := by
  refine proper_walk ?_ ?_
  · split
    · exact fun s hs => nomatch hs
    · exact h
  · intro c hc
    obtain ⟨piece, hpiece, rfl⟩ := List.mem_map.1 hc
    rw [String.toList_ofList]
    exact Text.not_mem_of_mem_splitChars hpiece

end Path

/-! ## Trees of proper paths -/

namespace FileTree

/-- All paths of the tree are proper. -/
def Proper (t : FileTree) : Prop := ∀ p ∈ t.entries.keys, Path.Proper p

instance (t : FileTree) : Decidable t.Proper :=
  inferInstanceAs (Decidable (∀ p ∈ t.entries.keys, Path.Proper p))

variable {t : FileTree}

theorem Proper.put (h : t.Proper) {p : Path.Parts} (hp : Path.Proper p) (e : Entry) :
    (t.put p e).Proper := by
  intro q hq
  rcases Table.mem_keys_put.1 hq with rfl | hq
  · exact hp
  · exact h q hq

theorem Proper.makeDirectory (h : t.Proper) {p : Path.Parts} (hp : Path.Proper p) :
    (t.makeDirectory p).Proper := by
  unfold FileTree.makeDirectory
  split
  · exact h
  · exact h.put hp _

theorem Proper.makeParents (h : t.Proper) {p : Path.Parts} (hp : Path.Proper p) :
    (t.makeParents p).Proper := by
  have hway : ∀ q ∈ ancestors p, Path.Proper q := by
    intro q hq
    obtain ⟨n, -, rfl⟩ := List.mem_map.1 hq
    exact fun s hs => hp s (List.mem_of_mem_take hs)
  unfold FileTree.makeParents
  generalize ancestors p = way at hway
  induction way generalizing t with
  | nil => exact h
  | cons q way ih =>
    rw [List.foldl_cons]
    exact ih (h.makeDirectory (hway q List.mem_cons_self))
      (fun r hr => hway r (List.mem_cons_of_mem q hr))

theorem Proper.write (h : t.Proper) {p : Path.Parts} (hp : Path.Proper p) (content : List UInt8) :
    (t.write p content).Proper := (h.makeParents hp).put hp _

theorem Proper.addDirectory (h : t.Proper) {p : Path.Parts} (hp : Path.Proper p) :
    (t.addDirectory p).Proper := (h.makeParents hp).makeDirectory hp

theorem Proper.remove (h : t.Proper) (p : Path.Parts) : (t.remove p).Proper := by
  intro q hq
  exact h q ((List.filter_sublist.map Prod.fst).subset hq)

end FileTree
end ChainLint
