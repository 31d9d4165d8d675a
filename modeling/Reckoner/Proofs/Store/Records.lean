import Reckoner.Store.Snapshot

/-!
# Records of a store

How the operations of a store change what it keeps, and the stores that they lead to. `Built.keyed`
says that each record of such a store carries the number under which it is kept.
-/

namespace Reckoner

namespace Store

variable {s : Store} {c : Calculation} {id key : Calculation.Id}

theorem find?_insert (s : Store) (id key : Calculation.Id) (c : Calculation) :
    find? { s with records := s.records.insert id c } key =
      if key = id then some c else s.find? key := by
  by_cases same : key = id
  · subst same
    simp [find?]
  · have other : id ≠ key := fun h => same h.symm
    simp [find?, Std.TreeMap.getElem?_insert, same, other]

@[simp] theorem find?_empty (id : Calculation.Id) : empty.find? id = none := by
  simp [find?, empty]

theorem find?_create (s : Store) (c : Calculation) (key : Calculation.Id) :
    (s.create c).2.find? key =
      if key = s.nextId then some { c with id := some s.nextId } else s.find? key :=
  find?_insert s.issue.2 s.nextId key _

@[simp] theorem nextId_keep (s : Store) (c : Calculation) : (s.keep c).nextId = s.nextId := by
  unfold keep
  split
  · rfl
  · split
    · split <;> rfl
    · rfl

@[simp] theorem costs_keep (s : Store) (c : Calculation) : (s.keep c).costs = s.costs := by
  unfold keep
  split
  · rfl
  · split
    · split <;> rfl
    · rfl

theorem find?_keep_of_id_ne (other : c.id ≠ some key) : (s.keep c).find? key = s.find? key := by
  unfold keep
  split
  · rfl
  · rename_i id named
    have different : key ≠ id := by
      rintro rfl
      exact other named
    split
    · split
      · rfl
      · rw [find?_insert, if_neg different]
    · rw [find?_insert, if_neg different]

theorem find?_keep_of_open (named : c.id = some id)
    (going : ∀ old, s.find? id = some old → old.isTerminal = false) :
    (s.keep c).find? id = some c := by
  unfold keep
  simp only [named]
  split
  · rename_i old found
    simp [going old found, find?_insert]
  · simp [find?_insert]

/-! ### All records -/

theorem all_eq (s : Store) : s.all = s.records.toList.map Prod.snd := by
  have folded : s.all = s.records.foldr (fun _ c rest => c :: rest) [] := rfl
  rw [folded, Std.TreeMap.foldr_eq_foldr_toList]
  induction s.records.toList with
  | nil => rfl
  | cons entry rest ih => simp [ih]

theorem mem_all : c ∈ s.all ↔ ∃ id, s.find? id = some c := by
  simp [all_eq, find?]

theorem mem_unfinished : c ∈ s.unfinished ↔ (∃ id, s.find? id = some c) ∧ c.isPending = true := by
  rw [unfinished, List.mem_filter, mem_all]

def others (s : Store) (id : Calculation.Id) : List Calculation :=
  (s.records.toList.filter fun entry => decide (¬ (id == entry.1) = true)).map Prod.snd

theorem all_insert_perm (s : Store) (id : Calculation.Id) (c : Calculation) :
    (all { s with records := s.records.insert id c }).Perm (c :: s.others id) := by
  rw [all_eq]
  exact Std.TreeMap.toList_insert_perm.map Prod.snd

theorem nodup_toList (records : Records) : records.toList.Nodup := by
  refine Std.TreeMap.distinct_keys_toList.imp ?_
  rintro a b different rfl
  exact different Std.ReflCmp.compare_self

theorem all_perm_of_find? (found : s.find? id = some c) : s.all.Perm (c :: s.others id) := by
  have same : s.records.toList.Perm (s.records.insert id c).toList := by
    rw [List.perm_ext_iff_of_nodup (nodup_toList _) (nodup_toList _)]
    rintro ⟨key, d⟩
    have inserted := find?_insert s id key c
    rw [find?, find?] at inserted
    rw [Std.TreeMap.mem_toList_iff_getElem?_eq_some, Std.TreeMap.mem_toList_iff_getElem?_eq_some,
      inserted]
    split
    · rename_i hit
      rw [hit, ← found, find?]
    · rfl
  have inserted := all_insert_perm s id c
  rw [all_eq] at inserted ⊢
  exact (same.map Prod.snd).trans inserted

theorem others_of_find?_eq_none (absent : s.find? id = none) : s.others id = s.all := by
  rw [others, all_eq, List.filter_eq_self.2]
  rintro ⟨key, c⟩ member
  have found : s.find? key = some c := Std.TreeMap.mem_toList_iff_getElem?_eq_some.1 member
  have different : id ≠ key := by
    rintro rfl
    rw [absent] at found
    cases found
  simpa using different

theorem texts_create (absent : s.find? s.nextId = none) (c : Calculation) :
    ((s.create c).2.all.map Calculation.text).Perm (c.text :: s.all.map Calculation.text) := by
  have created := (all_insert_perm s.issue.2 s.nextId
    { c with id := some s.nextId }).map Calculation.text
  rw [List.map_cons, show s.issue.2.others s.nextId = s.others s.nextId from rfl,
    others_of_find?_eq_none absent] at created
  exact created

theorem texts_keep {old : Calculation} (found : s.find? id = some old) (named : c.id = some id)
    (same : c.text = old.text) :
    ((s.keep c).all.map Calculation.text).Perm (s.all.map Calculation.text) := by
  unfold keep
  simp only [named, found]
  split
  · exact .refl _
  · have before := (all_perm_of_find? found).map Calculation.text
    have after := (all_insert_perm s id c).map Calculation.text
    rw [List.map_cons] at before after
    rw [same] at after
    exact after.trans before.symm

/-! ### Stores that come about -/

/-- Each record carries the number under which it is kept. -/
def Keyed (s : Store) : Prop :=
  ∀ id c, s.find? id = some c → c.id = some id

/-- Stores that come about: new, restored from a file, or by an event from another one. -/
inductive Built : Store → Prop where
  | empty : Built empty
  | restored (file : Snapshot) : Built file.restore
  | created {s : Store} (h : Built s) (c : Calculation) : Built (s.create c).2
  | kept {s : Store} (h : Built s) (c : Calculation) : Built (s.keep c)
  | costed {s : Store} (h : Built s) (table : CostTable) : Built (s.recordCosts table)

theorem Keyed.insert (h : s.Keyed) (named : c.id = some id) :
    Keyed { s with records := s.records.insert id c } := by
  intro key found present
  rw [find?_insert] at present
  split at present
  · rename_i same
    cases present
    exact same ▸ named
  · exact h key found present

theorem Keyed.create (h : s.Keyed) (c : Calculation) : (s.create c).2.Keyed :=
  Keyed.insert (s := s.issue.2) h rfl

theorem Keyed.keep (h : s.Keyed) (c : Calculation) : (s.keep c).Keyed := by
  unfold Store.keep
  split
  · exact h
  · rename_i id named
    split
    · split
      · exact h
      · exact h.insert named
    · exact h.insert named

theorem keyed_restore (file : Snapshot) : file.restore.Keyed := by
  refine List.foldlRecOn (motive := fun records => Keyed ⟨_, _, records⟩) file.calculations _ ?_ ?_
  · intro id c found
    simp [find?] at found
  · intro records h c _
    split
    · rename_i id named
      exact h.insert named
    · exact h

theorem Built.keyed (h : Built s) : s.Keyed := by
  induction h with
  | empty => intro id c found; simp at found
  | restored file => exact keyed_restore file
  | created _ c ih => exact ih.create c
  | kept _ c ih => exact ih.keep c
  | costed _ table ih => exact ih

theorem Keyed.nodup_ids (h : s.Keyed) : (s.all.map Calculation.id).Nodup := by
  have keys : s.all.map Calculation.id = s.records.toList.map fun entry => some entry.1 := by
    rw [all_eq, List.map_map]
    apply List.map_congr_left
    rintro ⟨id, c⟩ member
    exact h id c (Std.TreeMap.mem_toList_iff_getElem?_eq_some.1 member)
  rw [keys, List.Nodup, List.pairwise_map]
  refine Std.TreeMap.distinct_keys_toList.imp ?_
  intro a b different same
  apply different
  rw [Option.some.inj same]
  exact Std.ReflCmp.compare_self

end Store

end Reckoner
