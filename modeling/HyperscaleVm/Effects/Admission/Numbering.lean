import HyperscaleVm.Effects.Admission.Authority
import HyperscaleVm.Library.Refusals

/-!
# The numbers the walk gives the intents of a tree

The walk is a preorder: a composer is numbered before its members, each member's entry
names its composer and its position there, and a composer has one numbered child for each
of its members.
-/

namespace HyperscaleVm.Effects.Admission
open Library List

def Visit.Linked (visits : List Visit) (number : ℕ) (visit : Visit) : Prop :=
  ∀ composer position, visit.composer = some (composer, position) → composer < number ∧
    ∃ holder, visits[composer]? = some holder ∧
      holder.intent.members[position]?.map Prod.fst = some visit.intent

section

variable {visits : List Visit}

mutual

theorem linked_visits : (intent : Intent) → ∀ {at_ depth : ℕ} {composer : Option (ℕ × ℕ)},
    (∀ (i : ℕ) (v : Visit), (intent.visits at_ depth composer)[i]? = some v →
      visits[at_ + i]? = some v) → Visit.Linked visits at_ ⟨intent, composer, depth⟩ →
    ∀ (i : ℕ) (v : Visit), (intent.visits at_ depth composer)[i]? = some v →
      v.Linked visits (at_ + i)
  | .mk header accounts attestedBy nodes sockets gives members, at_, depth, composer => by
    intro hstands hlinked i v hv
    cases i with
    | zero =>
      obtain rfl := Option.some.inj hv
      exact hlinked
    | succ i =>
      have hroot : visits[at_]? =
          some ⟨.mk header accounts attestedBy nodes sockets gives members, composer, depth⟩ :=
        hstands 0 _ rfl
      have hrest : at_ + (i + 1) = at_ + 1 + i := by omega
      rw [hrest]
      refine linked_memberVisits members (fun j u hu => ?_) (Nat.lt_succ_self at_) hroot
        (fun k => by rw [zero_add]; rfl) i v hv
      have hnext : at_ + 1 + j = at_ + (j + 1) := by omega
      rw [hnext]
      exact hstands (j + 1) u hu

theorem linked_memberVisits : (members : List (Intent × List Binding)) →
    ∀ {next depth composer position : ℕ} {holder : Visit},
    (∀ (i : ℕ) (v : Visit), (memberVisits next depth composer position members)[i]? = some v →
      visits[next + i]? = some v) → composer < next → visits[composer]? = some holder →
    (∀ k, holder.intent.members[position + k]? = members[k]?) →
    ∀ (i : ℕ) (v : Visit), (memberVisits next depth composer position members)[i]? = some v →
      v.Linked visits (next + i)
  | [], _, _, _, _, _ => by
    intro _ _ _ _ i v hv
    cases hv
  | (intent, bindings) :: members, next, depth, composer, position, holder => by
    intro hstands hbefore hholder hmembers i v hv
    set below := intent.visits next depth (some (composer, position)) with hbelow
    have hsplit : memberVisits next depth composer position ((intent, bindings) :: members) =
        below ++ memberVisits (next + below.length) depth composer (position + 1) members := rfl
    rw [hsplit] at hstands hv
    by_cases hi : i < below.length
    · rw [getElem?_append_left hi] at hv
      refine linked_visits intent (fun j u hu => hstands j u ?_) ?_ i v hv
      · exact getElem?_of_prefix (prefix_append _ _) hu
      · intro c p hc
        cases hc
        refine ⟨hbefore, holder, hholder, ?_⟩
        have hfirst := hmembers 0
        rw [add_zero] at hfirst
        rw [hfirst]
        rfl
    · rw [getElem?_append_right (Nat.le_of_not_lt hi)] at hv
      have hat : next + i = next + below.length + (i - below.length) := by omega
      rw [hat]
      refine linked_memberVisits members (fun j u hu => ?_) (by omega) hholder (fun k => ?_) _ v hv
      · have hplace : next + below.length + j = next + (below.length + j) := by omega
        rw [hplace]
        refine hstands (below.length + j) u ?_
        rw [getElem?_append_right (Nat.le_add_right _ _), Nat.add_sub_cancel_left]
        exact hu
      · have hnext := hmembers (k + 1)
        have hshift : position + (k + 1) = position + 1 + k := by omega
        rw [hshift] at hnext
        rw [hnext]
        rfl

end

end

def kids (visits : List Visit) (at_ composer : ℕ) : List (ℕ × Intent) :=
  (visits.zipIdx at_).filterMap fun (visit, number) =>
    if visit.composer.map Prod.fst = some composer then some (number, visit.intent) else none

def membersIn (visits : List Visit) (at_ composer : ℕ) : List Intent :=
  if at_ ≤ composer then
    ((visits[composer - at_]?).map fun visit => visit.intent.members.map Prod.fst).getD []
  else []

theorem kids_append (as bs : List Visit) (at_ composer : ℕ) :
    kids (as ++ bs) at_ composer = kids as at_ composer ++ kids bs (at_ + as.length) composer := by
  rw [kids, zipIdx_append, filterMap_append]
  rfl

theorem membersIn_append (as bs : List Visit) (at_ composer : ℕ) :
    membersIn (as ++ bs) at_ composer =
      membersIn as at_ composer ++ membersIn bs (at_ + as.length) composer := by
  unfold membersIn
  by_cases hlow : at_ ≤ composer
  · by_cases hmid : composer - at_ < as.length
    · have hright : ¬at_ + as.length ≤ composer := by omega
      rw [if_pos hlow, if_pos hlow, if_neg hright, getElem?_append_left hmid, append_nil]
    have hright : at_ + as.length ≤ composer := by omega
    have hnone : as[composer - at_]? = none := getElem?_eq_none (by omega)
    have hsub : composer - at_ - as.length = composer - (at_ + as.length) := by omega
    rw [if_pos hlow, if_pos hlow, if_pos hright,
      getElem?_append_right (Nat.le_of_not_lt hmid), hnone, hsub]
    simp
  · have hright : ¬at_ + as.length ≤ composer := by omega
    rw [if_neg hlow, if_neg hlow, if_neg hright, append_nil]

theorem membersIn_before {visits : List Visit} {at_ composer : ℕ} (h : composer < at_) :
    membersIn visits at_ composer = [] :=
  if_neg (Nat.not_le_of_lt h)

mutual

theorem kids_visits : (intent : Intent) → (at_ depth : ℕ) → (own : Option (ℕ × ℕ)) →
    (composer : ℕ) → (kids (intent.visits at_ depth own) at_ composer).map Prod.snd =
      (if own.map Prod.fst = some composer then [intent] else []) ++
        membersIn (intent.visits at_ depth own) at_ composer
  | .mk header accounts attestedBy nodes sockets gives members, at_, depth, own, composer => by
    have hsplit : (Intent.mk header accounts attestedBy nodes sockets gives members).visits at_
        depth own = [⟨.mk header accounts attestedBy nodes sockets gives members, own, depth⟩] ++
          memberVisits (at_ + 1) (depth + 1) at_ 0 members := rfl
    have hrest := kids_memberVisits members (at_ + 1) (depth + 1) at_ 0 composer
      (Nat.lt_succ_self at_)
    have hhead : membersIn
        [⟨.mk header accounts attestedBy nodes sockets gives members, own, depth⟩] at_ composer =
          if composer = at_ then members.map Prod.fst else [] := by
      unfold membersIn
      by_cases heq : composer = at_
      · simp [heq, Intent.members]
      · by_cases hle : at_ ≤ composer
        · have hpos : composer - at_ ≠ 0 := by omega
          simp [hle, heq, hpos]
        · simp [hle, heq]
    have hone : (kids [⟨.mk header accounts attestedBy nodes sockets gives members, own, depth⟩]
        at_ composer).map Prod.snd = if own.map Prod.fst = some composer then
          [.mk header accounts attestedBy nodes sockets gives members] else [] := by
      by_cases hown : own.map Prod.fst = some composer <;> simp [kids, hown]
    rw [hsplit, kids_append, membersIn_append, map_append, hone, length_singleton, hrest,
      hhead]

theorem kids_memberVisits : (members : List (Intent × List Binding)) →
    (next depth own position composer : ℕ) → own < next →
    (kids (memberVisits next depth own position members) next composer).map Prod.snd =
      (if composer = own then members.map Prod.fst else []) ++
        membersIn (memberVisits next depth own position members) next composer
  | [], next, depth, own, position, composer, _ => by
    simp [memberVisits, kids, membersIn]
  | (intent, bindings) :: members, next, depth, own, position, composer, hown => by
    set below := intent.visits next depth (some (own, position)) with hbelow
    have hsplit : memberVisits next depth own position ((intent, bindings) :: members) =
        below ++ memberVisits (next + below.length) depth own (position + 1) members := rfl
    have hfirst := kids_visits intent next depth (some (own, position)) composer
    have hrest := kids_memberVisits members (next + below.length) depth own (position + 1)
      composer (by omega)
    rw [← hbelow] at hfirst
    rw [hsplit, kids_append, membersIn_append, map_append, hfirst, hrest]
    by_cases heq : composer = own
    · subst heq
      simp [membersIn_before hown]
    · have hne : ¬own = composer := fun h => heq h.symm
      simp [heq, hne]

end

section

variable {root : Intent}

theorem walk_intents (root : Intent) (number : ℕ) :
    (walk root).intents[number]? = ((root.visits 0 1 none)[number]?).map Visit.intent := by
  simp [walk]

variable {composer position : ℕ}

theorem walk_parent {number : ℕ}
    (h : (walk root).parent[number]? = some (some (composer, position))) :
    composer < number ∧ ∃ intent holder, (walk root).intents[number]? = some intent ∧
      (walk root).intents[composer]? = some holder ∧
      holder.members[position]?.map Prod.fst = some intent := by
  have hparent : ((root.visits 0 1 none)[number]?).map Visit.composer =
      some (some (composer, position)) := by simpa [walk] using h
  obtain ⟨visit, hvisit, hcomposer⟩ := Option.map_eq_some_iff.mp hparent
  have hlinked : visit.Linked (root.visits 0 1 none) number := by
    have hall : ∀ (i : ℕ) (v : Visit), (root.visits 0 1 none)[i]? = some v →
        v.Linked (root.visits 0 1 none) (0 + i) :=
      linked_visits root (fun i v hv => by rwa [zero_add]) fun _ _ h => by cases h
    have hthis := hall number visit hvisit
    rwa [zero_add] at hthis
  obtain ⟨hlt, holder, hholder, hmember⟩ := hlinked composer position hcomposer
  refine ⟨hlt, visit.intent, holder.intent, ?_, ?_, hmember⟩
  · rw [walk_intents, hvisit]
    rfl
  · rw [walk_intents, hholder]
    rfl

theorem childrenOf_kids (visits : List Visit) (composer : ℕ) :
    childrenOf visits composer = (kids visits 0 composer).map Prod.fst := by
  rw [childrenOf, kids, map_filterMap]
  congr 1
  funext ⟨visit, number⟩
  dsimp only
  split <;> rfl

variable {holder : Intent}

theorem walk_children (h : (walk root).intents[composer]? = some holder) :
    ∃ numbered : List (ℕ × Intent), (walk root).children[composer]? = some (numbered.map Prod.fst) ∧
      numbered.map Prod.snd = holder.members.map Prod.fst ∧
      ∀ number intent, (number, intent) ∈ numbered →
        composer < number ∧ (walk root).intents[number]? = some intent := by
  rw [walk_intents] at h
  obtain ⟨visit, hvisit, rfl⟩ := Option.map_eq_some_iff.mp h
  have hlt : composer < (root.visits 0 1 none).length := (List.getElem?_eq_some_iff.mp hvisit).1
  refine ⟨kids (root.visits 0 1 none) 0 composer, ?_, ?_, ?_⟩
  · rw [← childrenOf_kids]
    simp [walk, hlt]
  · rw [kids_visits root 0 1 none composer]
    simp [membersIn, hvisit]
  · intro number intent hmem
    obtain ⟨⟨kid, at_⟩, hfrom, hsome⟩ := mem_filterMap.mp hmem
    have hkid := mem_zipIdx_iff_getElem?.mp hfrom
    dsimp only at hsome hkid
    split at hsome
    · rename_i hcomposer
      cases hsome
      obtain ⟨⟨c, p⟩, hc, rfl⟩ := Option.map_eq_some_iff.mp hcomposer
      have hparent : (walk root).parent[number]? = some (some (c, p)) := by simp [walk, hkid, hc]
      refine ⟨(walk_parent hparent).1, ?_⟩
      rw [walk_intents, hkid]
      rfl
    · cases hsome

end

end HyperscaleVm.Effects.Admission
