/-
The check of all that is in some constructs, part by part down to the leaves. What is so of every step is put
together here: the errors of the whole are the own errors of all constructs in it, each of which is visited once.
-/
import VCLang.Proofs.Verdict.Step
namespace VCLang.Typing

variable {options : Options} {v : Visit} {vs ws all more : List Visit}

/-- The checks of all that is in some constructs, each behind those of its parts. -/
inductive Walk (options : Options) : List Visit → List Visit → Prop
  | nil : Walk options [] []
  | cons {v : Visit} {ws below vs rest : List Visit} : v.Splits options ws → Walk options ws below →
    Walk options vs rest → Walk options (v :: vs) (below ++ v :: rest)

namespace Walk

theorem append (h : Walk options vs all) (h' : Walk options ws more) : Walk options (vs ++ ws) (all ++ more) := by
  induction h with
  | nil => exact h'
  | cons hsplit hbelow _ _ ih =>
    rw [List.append_assoc]
    exact .cons hsplit hbelow ih

/-- Whatever is checked can be walked through. -/
theorem exists_of_ran (h : ∀ v ∈ vs, v.Ran options) : ∃ all, Walk options vs all := by
  have hlist {vs : List Visit} (hone : ∀ v ∈ vs, ∃ all, Walk options [v] all) : ∃ all, Walk options vs all := by
    induction vs with
    | nil => exact ⟨[], .nil⟩
    | cons v vs ih =>
      obtain ⟨all, hall⟩ := hone v (by simp)
      obtain ⟨more, hmore⟩ := ih fun w hw => hone w (List.mem_cons_of_mem _ hw)
      exact ⟨all ++ more, hall.append hmore⟩
  have hone (c : Construct) : ∀ v : Visit, v.construct = c → v.Ran options → ∃ all, Walk options [v] all := by
    induction c using Construct.induct with
    | h c ih =>
      rintro v rfl hran
      obtain ⟨ws, hsplit⟩ := hran.splits
      obtain ⟨below, hbelow⟩ := hlist fun w hw =>
        ih w.construct (by rw [← hsplit.constructs]; exact List.mem_map_of_mem hw) w rfl (hsplit.ran w hw)
      exact ⟨_, .cons hsplit hbelow .nil⟩
  exact hlist fun v hv => hone v.construct v rfl (h v hv)

theorem subset (h : Walk options vs all) : vs ⊆ all := by
  induction h with
  | nil => simp
  | cons _ _ _ _ ih =>
    intro w hw
    rw [List.mem_append, List.mem_cons]
    rcases List.mem_cons.1 hw with rfl | hw
    · exact .inr (.inl rfl)
    · exact .inr (.inr (ih hw))

/-- What is visited splits into checks that are visited as well. -/
theorem splits (h : Walk options vs all) : ∀ v ∈ all, ∃ ws ⊆ all, v.Splits options ws := by
  induction h with
  | nil => simp
  | @cons v ws below vs rest hsplit hbelow hrest ihBelow ih =>
    rw [List.forall_mem_append, List.forall_mem_cons]
    have hfirst : below ⊆ below ++ v :: rest := List.subset_append_left _ _
    have hlast : rest ⊆ below ++ v :: rest := fun w hw => List.mem_append_right _ (List.mem_cons_of_mem _ hw)
    refine ⟨fun w hw => ?_, ⟨ws, List.Subset.trans hbelow.subset hfirst, hsplit⟩, fun w hw => ?_⟩
    · obtain ⟨us, hus, hw⟩ := ihBelow w hw
      exact ⟨us, List.Subset.trans hus hfirst, hw⟩
    · obtain ⟨us, hus, hw⟩ := ih w hw
      exact ⟨us, List.Subset.trans hus hlast, hw⟩

/-- What is visited is checked by itself or is a part of what is visited. -/
theorem exists_whole (h : Walk options vs all) :
    ∀ w ∈ all, w ∈ vs ∨ ∃ v ∈ all, ∃ ws ⊆ all, v.Splits options ws ∧ w ∈ ws := by
  induction h with
  | nil => simp
  | @cons v ws below vs rest hsplit hbelow hrest ihBelow ih =>
    have hfirst : below ⊆ below ++ v :: rest := List.subset_append_left _ _
    have hlast : rest ⊆ below ++ v :: rest := fun w hw => List.mem_append_right _ (List.mem_cons_of_mem _ hw)
    rw [List.forall_mem_append, List.forall_mem_cons]
    refine ⟨fun w hw => ?_, .inl List.mem_cons_self, fun w hw => ?_⟩
    · rcases ihBelow w hw with hw | ⟨u, hu, us, hus, hsplit', hw⟩
      · exact .inr ⟨v, by simp, ws, List.Subset.trans hbelow.subset hfirst, hsplit, hw⟩
      · exact .inr ⟨u, hfirst hu, us, List.Subset.trans hus hfirst, hsplit', hw⟩
    · rcases ih w hw with hw | ⟨u, hu, us, hus, hsplit', hw⟩
      · exact .inl (List.mem_cons_of_mem _ hw)
      · exact .inr ⟨u, hlast hu, us, List.Subset.trans hus hlast, hsplit', hw⟩

/-- What is so of what is checked and goes over to its parts is so of all that is in it. -/
theorem forall_mem {P : Visit → Prop} (h : Walk options vs all) (hvs : ∀ v ∈ vs, P v)
    (hpart : ∀ v w, P v → w.Ran options → w.PartOf v → w.construct ∈ v.construct.parts → P w) : ∀ v ∈ all, P v := by
  induction h with
  | nil => exact hvs
  | @cons v ws below vs rest hsplit _ _ ihBelow ih =>
    rw [List.forall_mem_cons] at hvs
    have hws : ∀ w ∈ ws, P w := by
      intro w hw
      have hmem : w.construct ∈ v.construct.parts := by
        rw [← hsplit.constructs]
        exact List.mem_map_of_mem hw
      exact hpart v w hvs.1 (hsplit.ran w hw) (hsplit.part w hw) hmem
    rw [List.forall_mem_append, List.forall_mem_cons]
    exact ⟨ihBelow hws, hvs.1, ih hvs.2⟩

/-- The errors are the own errors of all that is visited. -/
theorem errors {τ : ExprId → Ty} (h : Walk options vs all) (hτ : ∀ v ∈ all, v.TypedBy τ) :
    (vs.flatMap (·.errors)).Perm (all.flatMap fun v => v.construct.ownErrors options v.place τ) := by
  induction h with
  | nil => exact .nil
  | @cons v ws below vs rest hsplit hbelow _ ihBelow ih =>
    rw [List.forall_mem_append, List.forall_mem_cons] at hτ
    have hv := hsplit.errors τ fun w hw => hτ.1 w (hbelow.subset hw)
    rw [List.flatMap_cons, List.flatMap_append, List.flatMap_cons]
    refine ((hv.trans ((ihBelow hτ.1).append_left _)).append (ih hτ.2.2)).trans ?_
    rw [← List.append_assoc]
    exact List.perm_append_comm.append_right _

/-- What a construct has in it is what its parts have and what it has itself, so that all of it is found at what
is visited, each as often as it is there. -/
theorem listed {α : Type} {f g : Construct → List α} (h : Walk options vs all)
    (hfg : ∀ c, (f c).Perm (c.parts.flatMap f ++ g c)) :
    (vs.flatMap fun v => f v.construct).Perm (all.flatMap fun v => g v.construct) := by
  induction h with
  | nil => exact .nil
  | @cons v ws below vs rest hsplit _ _ ihBelow ih =>
    have hparts : v.construct.parts.flatMap f = ws.flatMap fun w => f w.construct := by
      rw [← hsplit.constructs, List.flatMap_map]
    have hv := hfg v.construct
    rw [hparts] at hv
    rw [List.flatMap_cons, List.flatMap_append, List.flatMap_cons, ← List.append_assoc]
    exact (hv.trans (ihBelow.append_right _)).append ih

end Walk

end VCLang.Typing
