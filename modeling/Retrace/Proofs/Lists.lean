import Mathlib.Data.List.Forall2
import Mathlib.Data.List.Nodup

/-! Lists that are related item by item, lists without their repetitions, and lists of entries whose
keys are distinct. -/
namespace Retrace
variable {α : Type u} {β : Type v} {R S : α → β → Prop}

/-- A relation that holds of all pairs of items may replace another. -/
theorem forall₂_imp_mem {as : List α} {bs : List β} (h : List.Forall₂ R as bs)
    (himp : ∀ a ∈ as, ∀ b ∈ bs, R a b → S a b) : List.Forall₂ S as bs := by
  induction h with
  | nil => exact .nil
  | cons hab _ ih =>
    refine .cons (himp _ List.mem_cons_self _ List.mem_cons_self hab) (ih ?_)
    intro a ha b hb
    exact himp a (List.mem_cons_of_mem _ ha) b (List.mem_cons_of_mem _ hb)

theorem exists_of_mem_right {as : List α} {bs : List β} (h : List.Forall₂ R as bs) {b : β}
    (hb : b ∈ bs) : ∃ a ∈ as, R a b := by
  induction h with
  | nil => cases hb
  | cons hab _ ih =>
    rcases List.mem_cons.1 hb with rfl | hb
    · exact ⟨_, List.mem_cons_self, hab⟩
    · obtain ⟨a, ha, hR⟩ := ih hb
      exact ⟨a, List.mem_cons_of_mem _ ha, hR⟩

/-- A map that leaves a list as it is leaves its items as they are. -/
theorem map_eq_self_iff {f : α → α} {as : List α} : as.map f = as ↔ ∀ a ∈ as, f a = a := by
  conv_lhs => rhs; rw [← List.map_id as]
  exact List.map_inj_left

/-- Related lists can be cut where the first of two parts ends. -/
theorem forall₂_of_append {as as' : List α} {bs bs' : List β} (hlength : bs.length = as.length)
    (h : List.Forall₂ R (as ++ as') (bs ++ bs')) :
    List.Forall₂ R as bs ∧ List.Forall₂ R as' bs' := by
  have htake := List.forall₂_take_append _ _ _ h
  have hdrop := List.forall₂_drop_append _ _ _ h
  rw [List.take_left' hlength.symm] at htake
  rw [List.drop_left' hlength.symm] at hdrop
  exact ⟨htake, hdrop⟩

/-- Each item of the first list has its partner at the same place. -/
theorem exists_getElem?_right {as : List α} {bs : List β} (h : List.Forall₂ R as bs) {i : Nat}
    {a : α} (ha : as[i]? = some a) : ∃ b, bs[i]? = some b ∧ R a b := by
  induction h generalizing i with
  | nil => cases ha
  | cons hab _ ih =>
    cases i with
    | zero => cases ha; exact ⟨_, rfl, hab⟩
    | succ i => exact ih ha

/-- Where a test holds of the last item only, if it holds of any, the search finds the last item. -/
theorem find?_of_last {test : α → Bool} {P : Prop} [Decidable P] {as : List α}
    (h : ∀ k a, as[k]? = some a → (test a = true ↔ k + 1 = as.length ∧ P)) :
    as.find? test = if P then as.getLast? else none := by
  induction as with
  | nil => simp
  | cons a as ih =>
    have hhead := h 0 a rfl
    rw [List.find?_cons]
    cases as with
    | nil =>
      have hiff : test a = true ↔ P := by simpa using hhead
      cases htest : test a <;> simp [← hiff, htest]
    | cons b bs =>
      have hfalse : test a = false := by simpa using hhead
      rw [hfalse, List.getLast?_cons_cons]
      refine ih fun k c hc => ?_
      simpa using h (k + 1) c hc

theorem nodup_eraseDups [BEq α] [LawfulBEq α] (as : List α) : as.eraseDups.Nodup := by
  cases as with
  | nil => exact .nil
  | cons a as =>
    rw [List.eraseDups_cons, List.nodup_cons]
    refine ⟨fun hmem => ?_, nodup_eraseDups _⟩
    have hne := (List.mem_filter.1 (List.mem_eraseDups.1 hmem)).2
    simp at hne
termination_by as.length
decreasing_by exact Nat.lt_succ_of_le (List.length_filter_le _ _)

/-- Items that were met before add none. -/
theorem eraseDups_append_of_subset [BEq α] [LawfulBEq α] {as more : List α} (h : more ⊆ as) :
    (as ++ more).eraseDups = as.eraseDups := by
  have hnone : more.removeAll as = [] := by
    refine List.filter_eq_nil_iff.2 fun a ha => ?_
    simpa using h ha
  rw [List.eraseDups_append, hnone, List.eraseDups_nil, List.append_nil]

theorem eraseDups_append_new [BEq α] [LawfulBEq α] {as : List α} {a : α} (h : a ∉ as) :
    (as ++ [a]).eraseDups = as.eraseDups ++ [a] := by
  have hone : [a].removeAll as = [a] := by
    refine List.filter_eq_self.2 fun b hb => ?_
    cases List.mem_singleton.1 hb
    simpa using h
  rw [List.eraseDups_append, hone, List.eraseDups_cons, List.filter_nil, List.eraseDups_nil]

theorem perm_eraseDups [BEq α] [LawfulBEq α] {as bs : List α} (h : as.Perm bs) :
    as.eraseDups.Perm bs.eraseDups := by
  rw [List.perm_ext_iff_of_nodup (nodup_eraseDups as) (nodup_eraseDups bs)]
  intro a
  rw [List.mem_eraseDups, List.mem_eraseDups, h.mem_iff]

theorem mem_of_lookup [BEq α] [LawfulBEq α] {entries : List (α × β)} {a : α} {b : β}
    (h : entries.lookup a = some b) : (a, b) ∈ entries := by
  obtain ⟨front, back, rfl, -⟩ := List.lookup_eq_some_iff.1 h
  exact List.mem_append_right _ List.mem_cons_self

theorem value_unique {entries : List (α × β)} (h : (entries.map Prod.fst).Nodup) {a : α}
    {b b' : β} (hb : (a, b) ∈ entries) (hb' : (a, b') ∈ entries) : b = b' :=
  congrArg Prod.snd (List.inj_on_of_nodup_map h hb hb' rfl)

/-- Where keys are distinct, to look up is to be among the entries. -/
theorem lookup_iff_mem [BEq α] [LawfulBEq α] {entries : List (α × β)}
    (h : (entries.map Prod.fst).Nodup) {a : α} {b : β} :
    entries.lookup a = some b ↔ (a, b) ∈ entries := by
  refine ⟨mem_of_lookup, fun hb => ?_⟩
  cases hfind : entries.lookup a with
  | none => simpa using List.lookup_eq_none_iff.1 hfind _ hb
  | some b' => rw [value_unique h hb (mem_of_lookup hfind)]

end Retrace
