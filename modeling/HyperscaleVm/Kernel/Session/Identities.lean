import HyperscaleVm.Kernel.Session.Opening

/-!
# Instances are conserved one by one

An id of a non-fungible resource is held by an entry of a collection the declaration
denominates in the resource, or carried by a live bucket.
-/

namespace HyperscaleVm.Kernel
open Effects List Option Library Deed Session

def denominatedCollection (resource : ResourceAddr) (access : DeclaredAccess) :
    Option (Address × ℕ) :=
  match contentsOf access.effect.target with
  | .entries owner collection =>
    if access.holds = some resource then some (owner, collection) else none
  | .leaf _ => none

def collectionsOf (declaration : Declaration) (resource : ResourceAddr) : Finset (Address × ℕ) :=
  (declaration.ordered.filterMap (denominatedCollection resource)).toFinset

def carries (id : ℕ) : Held → Bool
  | .instances ids => id ∈ ids
  | .amount _ => false

section

variable (declaration : Declaration) (resource : ResourceAddr) (id : ℕ) (s : Session)

def entryPlaces : ℕ :=
  ((collectionsOf declaration resource).filter fun c =>
    (s.store.entryValue ⟨c.1, c.2, id⟩).isSome).card

def bucketPlaces : ℕ :=
  (s.buckets.slots.zip s.buckets.resources).countP fun p => p.2 = resource && p.1.any (carries id)

def places : ℕ := entryPlaces declaration resource id s + bucketPlaces resource id s

def mintedPlaces : SessionOp → ℕ
  | .mintInstances grant ids =>
    if (s.issued grant .nonFungible).toOption = some resource ∧ id ∈ ids then 1 else 0
  | _ => 0

def burnedPlaces : SessionOp → ℕ
  | .burn funds =>
    if s.buckets.resources[funds]? = some resource ∧
      (s.buckets.slots[funds]?.join).any (carries id) then 1 else 0
  | _ => 0

end

def along (count : Session → SessionOp → ℕ) : Session → List SessionOp → ℕ
  | _, [] => 0
  | s, op :: ops => count s op +
    match s.step op with
    | .ok (t, _) => along count t ops
    | .error _ => 0

def identity (id : ℕ) : Weight where
  of held := if carries id held then 1 else 0
  split _ _ := rfl
  merge := by
    intro held added total h
    rcases Buckets.merged_ok h with ⟨n, m, rfl, rfl, rfl⟩ | ⟨ids, ids', rfl, rfl, hdisjoint, rfl⟩
    · rfl
    · simp only [carries, Finset.mem_union, decide_eq_true_eq]
      by_cases hid : id ∈ ids'
      · simp [hid, Finset.disjoint_right.mp hdisjoint hid]
      · simp [hid]
  empty := by
    intro held hzero
    cases held with
    | amount n => rfl
    | instances ids =>
      have hnone : ids = ∅ := Finset.card_eq_zero.mp hzero
      simp [carries, hnone]

theorem bucketPlaces_eq (resource : ResourceAddr) (id : ℕ) (s : Session) :
    bucketPlaces resource id s = (identity id).inFlight resource s.books := by
  have hzip : ∀ (slots : List (Option Held)) (resources : List ResourceAddr),
      (slots.zip resources).countP (fun p => p.2 = resource && p.1.any (carries id)) =
        (List.zipWith ((identity id).inSlot resource) slots resources).sum := by
    intro slots
    induction slots with
    | nil => simp
    | cons slot slots ih =>
      intro resources
      cases resources with
      | nil => simp
      | cons carried resources =>
        rw [zip_cons_cons, countP_cons, ih, zipWith_cons_cons, sum_cons, Nat.add_comm]
        congr 1
        unfold Weight.inSlot Weight.toward
        cases slot with
        | none => simp
        | some held => by_cases hr : carried = resource <;> simp [hr, identity]
  exact hzip s.books.slots s.books.resources

theorem Session.entryValue_books (s : Session) (key : EntryKey) :
    s.store.entryValue key = (s.books.entries[key]?).getD (s.store.preActiveEntry key) := by
  unfold OverlayStore.entryValue
  change _ = (s.store.active.entries[key]?).getD _
  cases s.store.active.entries[key]? <;> rfl

theorem Session.preActiveEntry_of_setting {s t : Session} (h : t.setting = s.setting)
    (key : EntryKey) : t.store.preActiveEntry key = s.store.preActiveEntry key := by
  have hcommitted : t.store.committed = s.store.committed := congrArg Setting.committed h
  have hbase : t.store.base = s.store.base := congrArg Setting.base h
  unfold OverlayStore.preActiveEntry
  rw [hcommitted, hbase]

theorem holdsEntry_eq {s : Session} {m : MemoryStore} (hbase : s.store.base = m.toBaseline)
    (interval : Interval) (order : ℕ) : s.holdsEntry interval order =
      (s.store.entryValue ⟨interval.owner, interval.collection, order⟩).isSome := by
  have hprobe := mergedEntries_isEmpty hbase ⟨interval.owner, interval.collection, order⟩
  unfold holdsEntry
  rw [hprobe, not_isNone]

theorem card_filter_change {α : Type} [DecidableEq α] {S : Finset α}
    (before after : α → Bool) {c : α} (hc : c ∈ S) (hsame : ∀ x, x ≠ c → after x = before x) :
    (S.filter fun x => after x).card + (before c).toNat =
      (S.filter fun x => before x).card + (after c).toNat := by
  have hrest : ∑ x ∈ S.erase c, (if after x then 1 else 0) = ∑ x ∈ S.erase c,
      if before x then 1 else 0 := by
    refine Finset.sum_congr rfl fun x hx => ?_
    rw [hsame x (Finset.ne_of_mem_erase hx)]
  rw [Finset.card_filter, Finset.card_filter, ← Finset.add_sum_erase _ _ hc,
    ← Finset.add_sum_erase S (fun x => if before x then 1 else 0) hc, hrest]
  cases before c <;> cases after c <;> simp <;> omega

variable {store : OverlayStore} {declaration : Declaration} {tx : TxHash} {env : EnvInputs}
  {codec : Codec} {judges : OwnerSet}

theorem mem_collectionsOf {resource : ResourceAddr} {c : Address × ℕ} :
    c ∈ collectionsOf declaration resource ↔ ∃ access ∈ declaration.ordered,
      contentsOf access.effect.target = .entries c.1 c.2 ∧ access.holds = some resource := by
  unfold collectionsOf
  rw [List.mem_toFinset, List.mem_filterMap]
  refine exists_congr fun access => and_congr_right fun _ => ?_
  unfold denominatedCollection
  split
  · rename_i owner collection hcontents
    rw [hcontents]
    obtain ⟨owner', collection'⟩ := c
    simp only [ite_none_right_eq_some, some.injEq, Prod.mk.injEq, Contents.entries.injEq]
    tauto
  · rename_i key hcontents
    rw [hcontents]
    simp

namespace Tabled

variable {w : Setting} {rep : ℕ} {interval : Interval}

theorem rangeWrite_not_mem {r : Option ResourceAddr} (h : Tabled declaration w)
    (hholds : Deed.Holds w rep (.rangeWrite interval) r) (resource : ResourceAddr) :
    (interval.owner, interval.collection) ∉ collectionsOf declaration resource := by
  rw [mem_collectionsOf]
  rintro ⟨access, haccess, hcontents, hresource⟩
  obtain ⟨access', hordered, -, hcap⟩ := h.access hholds.1
  cases hcap with
  | rangeWrite htarget hmode hbytes =>
    have hagree := h.agree access haccess access' (mem_of_getElem? hordered)
      (hcontents.trans (intervalOf_contents htarget).symm)
    rw [← hagree, hresource] at hbytes
    cases hbytes

theorem instances_mem {moves : Moves} {carried : ResourceAddr} (h : Tabled declaration w)
    (hholds : Deed.Holds w rep (.instances interval moves) (some carried))
    (resource : ResourceAddr) :
    (interval.owner, interval.collection) ∈ collectionsOf declaration resource ↔
      carried = resource := by
  obtain ⟨access, hordered, hresource, hcap⟩ := h.access hholds.1
  have hcarried : access.holds = some carried := hresource.symm.trans hholds.2.1
  have hcontents :
      contentsOf access.effect.target = .entries interval.owner interval.collection := by
    cases hcap with
    | instances htarget hmode hvalue => exact intervalOf_contents htarget
  rw [mem_collectionsOf]
  constructor
  · rintro ⟨access', haccess', hcontents', hresource'⟩
    have hagree := h.agree access (mem_of_getElem? hordered) access' haccess'
      (hcontents.trans hcontents'.symm)
    rw [hcarried, hresource'] at hagree
    exact some.inj hagree
  · rintro rfl
    exact ⟨access, mem_of_getElem? hordered, hcontents, hcarried⟩

end Tabled

section

variable {resource : ResourceAddr} {id : ℕ} {s t : Session}

theorem entryPlaces_congr (h : ∀ c ∈ collectionsOf declaration resource,
    (t.store.entryValue ⟨c.1, c.2, id⟩).isSome = (s.store.entryValue ⟨c.1, c.2, id⟩).isSome) :
    entryPlaces declaration resource id t = entryPlaces declaration resource id s := by
  unfold entryPlaces
  refine congrArg Finset.card (Finset.filter_congr fun c hc => ?_)
  rw [h c hc]

theorem entryPlaces_setEntries (declaration : Declaration) (resource : ResourceAddr) (id : ℕ)
    (value : Option Bytes) {owner : Address} {collection : ℕ} {ids : Finset ℕ}
    {carried : ResourceAddr} (hsetting : t.setting = s.setting) (hentries : t.books.entries =
      (s.books.setEntries owner collection (ascending ids) value).entries)
    (hmem : (owner, collection) ∈ collectionsOf declaration resource ↔ carried = resource)
    (hstood : id ∈ ids → (s.store.entryValue ⟨owner, collection, id⟩).isSome = !value.isSome) :
    entryPlaces declaration resource id t +
        (if carried = resource ∧ id ∈ ids then (!value.isSome).toNat else 0) =
      entryPlaces declaration resource id s +
        if carried = resource ∧ id ∈ ids then value.isSome.toNat else 0 := by
  have hvalue : ∀ c : Address × ℕ, t.store.entryValue ⟨c.1, c.2, id⟩ =
      if c = (owner, collection) ∧ id ∈ ids then value else s.store.entryValue ⟨c.1, c.2, id⟩ := by
    intro c
    rw [t.entryValue_books, hentries, Books.getElem?_setEntries,
      preActiveEntry_of_setting hsetting, s.entryValue_books]
    by_cases hc : c = (owner, collection)
    · subst hc
      by_cases hid : id ∈ ids <;> simp [hid]
    · have hne : ¬(c.1 = owner ∧ c.2 = collection ∧ id ∈ ascending ids) := by
        rintro ⟨rfl, rfl, -⟩
        exact hc rfl
      rw [if_neg hne, if_neg fun h => hc h.1]
  by_cases hmoves : carried = resource ∧ id ∈ ids
  · have hchange := card_filter_change (fun c => (s.store.entryValue ⟨c.1, c.2, id⟩).isSome)
      (fun c => (t.store.entryValue ⟨c.1, c.2, id⟩).isSome) (hmem.mpr hmoves.1) fun c hc => by
        rw [hvalue, if_neg fun h => hc h.1]
    dsimp only at hchange
    rw [hvalue (owner, collection), if_pos ⟨rfl, hmoves.2⟩, hstood hmoves.2] at hchange
    rw [if_pos hmoves, if_pos hmoves]
    exact hchange
  · rw [if_neg hmoves, if_neg hmoves]
    refine congrArg (· + 0) (entryPlaces_congr fun c hc => ?_)
    have hne : ¬(c = (owner, collection) ∧ id ∈ ids) := by
      rintro ⟨rfl, hid⟩
      exact hmoves ⟨hmem.mp hc, hid⟩
    rw [hvalue, if_neg hne]

def Deed.born (resource : ResourceAddr) (id : ℕ) : Deed → ℕ
  | .mint held carried _ => (identity id).toward resource held carried
  | _ => 0

def Deed.ended (resource : ResourceAddr) (id : ℕ) (b : Books) : Deed → ℕ
  | .burn funds _ => (identity id).atRep resource b funds
  | _ => 0

theorem identity_amount (carried : ResourceAddr) (n : ℕ) :
    (identity id).toward resource (.amount n) carried = 0 := by
  unfold Weight.toward
  split <;> rfl

theorem identity_instances (carried : ResourceAddr) (ids : Finset ℕ) :
    (identity id).toward resource (.instances ids) carried =
      if carried = resource ∧ id ∈ ids then 1 else 0 := by
  by_cases hcarried : carried = resource <;> simp [Weight.toward, identity, carries, hcarried]

variable (resource id) {m : MemoryStore} {deed : Deed}

theorem places_of_deed (hbase : s.store.base = m.toBaseline)
    (htabled : Tabled declaration s.setting) (hpaired : s.books.Paired) (hallowed : deed.Allowed s)
    (hbooks : t.books = deed.apply s.books) (hsetting : t.setting = s.setting) :
    places declaration resource id t + deed.ended resource id s.books =
      places declaration resource id s + deed.born resource id := by
  have hflight := (identity id).inFlight_apply resource hpaired hallowed
  rw [← hbooks, ← bucketPlaces_eq, ← bucketPlaces_eq] at hflight
  -- the deeds that leave every entry alone
  have hsame : (deed.apply s.books).entries = s.books.entries →
      entryPlaces declaration resource id t = entryPlaces declaration resource id s := by
    intro hentries
    refine entryPlaces_congr fun c _ => ?_
    rw [t.entryValue_books, s.entryValue_books, hbooks, hentries,
      preActiveEntry_of_setting hsetting]
  unfold places
  cases deed with
  | nothing | setCell | split | merge | discard | mint | burn =>
    have hentries := hsame rfl
    simp only [closes, opens, born, ended] at hflight ⊢
    omega
  | debit | takeReserved | claim =>
    have hentries := hsame rfl
    simp only [closes, opens, born, ended, identity_amount] at hflight ⊢
    omega
  | credit key n funds =>
    have hentries := hsame rfl
    obtain ⟨rep, held, carried, -, -, hlive⟩ := hallowed
    simp only [closes, opens, born, ended, (identity id).atRep_live resource hlive,
      identity_amount] at hflight ⊢
    omega
  | issue node output funds crossed record value escrow =>
    have hentries := hsame rfl
    simp only [closes, opens, born, ended,
      (identity id).atRep_live resource hallowed.1, identity_amount] at hflight ⊢
    omega
  | setEntry key value =>
    -- no collection of the resource is written as bytes
    obtain ⟨rep, interval, r, hholds, howner, hcollection⟩ := hallowed
    have hout := htabled.rangeWrite_not_mem hholds resource
    have hentries :
        entryPlaces declaration resource id t = entryPlaces declaration resource id s := by
      refine entryPlaces_congr fun c hc => ?_
      have hne : key ≠ ⟨c.1, c.2, id⟩ := by
        rintro rfl
        rw [howner, hcollection] at hout
        exact hout hc
      have hget : t.books.entries[(⟨c.1, c.2, id⟩ : EntryKey)]? =
          s.books.entries[(⟨c.1, c.2, id⟩ : EntryKey)]? := by
        rw [hbooks]
        change (s.books.entries.insert key value)[(⟨c.1, c.2, id⟩ : EntryKey)]? = _
        rw [getElem?_insert_eq, if_neg hne]
      rw [t.entryValue_books, s.entryValue_books, hget, preActiveEntry_of_setting hsetting]
    simp only [closes, opens, born, ended] at hflight ⊢
    omega
  | takeInstances interval ids carried =>
    obtain ⟨rep, moves, hholds, hheld⟩ := hallowed
    have hentries := entryPlaces_setEntries declaration resource id none hsetting
      (by rw [hbooks]; rfl) (htabled.instances_mem hholds resource) fun hid => by
        rw [← holdsEntry_eq hbase]
        exact (hheld id hid).2
    simp only [closes, opens, born, ended, identity_instances, isSome_none, Bool.not_false,
      Bool.toNat_true, Bool.toNat_false, ite_self] at hflight hentries ⊢
    omega
  | fileInstances interval ids funds value =>
    obtain ⟨rep, moves, carried, hholds, hlive, hfree⟩ := hallowed
    have hentries := entryPlaces_setEntries declaration resource id (some value) hsetting
      (by rw [hbooks]; rfl) (htabled.instances_mem hholds resource) fun hid => by
        rw [← holdsEntry_eq hbase]
        exact (hfree id hid).2
    simp only [closes, opens, born, ended, (identity id).atRep_live resource hlive,
      identity_instances, isSome_some, Bool.not_true, Bool.toNat_true, Bool.toNat_false,
      ite_self] at hflight hentries ⊢
    omega

theorem Deed.Plain.born_ended (h : deed.Plain) (b : Books) :
    deed.born resource id = 0 ∧ deed.ended resource id b = 0 := by
  cases deed <;> first | exact ⟨rfl, rfl⟩ | cases h

variable {op : SessionOp}

theorem born_ended_of_fits (hallowed : deed.Allowed s)
    (hfits : deed.Fits s op) : deed.born resource id = mintedPlaces resource id s op ∧
      deed.ended resource id s.books = burnedPlaces resource id s op := by
  cases op with
  | mint grant n =>
    obtain ⟨carried, supply, rfl⟩ := hfits
    exact ⟨identity_amount carried n, rfl⟩
  | mintInstances grant ids =>
    obtain ⟨carried, supply, hissued, rfl⟩ := hfits
    refine ⟨(identity_instances carried ids.toFinset).trans ?_, rfl⟩
    simp [mintedPlaces, hissued, Except.toOption]
  | burn funds =>
    obtain ⟨supply, rfl⟩ := hfits
    obtain ⟨held, carried, hlive, -⟩ := hallowed
    refine ⟨rfl, ((identity id).atRep_live resource hlive).trans ?_⟩
    have hslot : s.buckets.slots[funds]? = some (some held) := hlive.1
    have hresource : s.buckets.resources[funds]? = some carried := hlive.2
    by_cases hcarried : carried = resource <;>
      simp [burnedPlaces, hslot, hresource, hcarried, Weight.toward, identity]
  | escrowOut node output funds departure =>
    obtain ⟨crossed, value, escrow, rfl⟩ := hfits
    exact ⟨rfl, rfl⟩
  | escrowIn arrival =>
    obtain ⟨value, escrow, rfl⟩ := hfits
    exact ⟨rfl, rfl⟩
  | _ => exact Deed.Plain.born_ended resource id hfits s.books

theorem places_of_step {a : OpAnswer}
    (hbase : s.store.base = m.toBaseline) (htabled : Tabled declaration s.setting)
    (hpaired : s.books.Paired) (h : s.step op = .ok (t, a)) :
    places declaration resource id t + burnedPlaces resource id s op =
      places declaration resource id s + mintedPlaces resource id s op := by
  obtain ⟨deed, hallowed, hfits, hbooks, hsetting⟩ := step_does h
  have hmoved := places_of_deed resource id hbase htabled hpaired hallowed hbooks hsetting
  obtain ⟨hborn, hended⟩ := born_ended_of_fits resource id hallowed hfits
  rwa [hborn, hended] at hmoved

structure Ready (m : MemoryStore) (declaration : Declaration) (s : Session) : Prop where
  base : s.store.base = m.toBaseline
  tabled : Tabled declaration s.setting
  paired : s.books.Paired

theorem Ready.step {a : OpAnswer} (h : Ready m declaration s)
    (hstep : s.step op = .ok (t, a)) : Ready m declaration t := by
  obtain ⟨deed, -, -, hbooks, hsetting⟩ := step_does hstep
  refine ⟨?_, hsetting ▸ h.tabled, hbooks ▸ h.paired.apply deed⟩
  have hbase : t.store.base = s.store.base := congrArg Setting.base hsetting
  exact hbase.trans h.base

theorem Ready.run {ops : List SessionOp} (h : Ready m declaration s)
    (hrun : s.run ops = .ok t) : Ready m declaration t :=
  run_induction (P := Ready m declaration) (fun _ _ _ _ _ hstep h => h.step hstep) hrun h

theorem Ready.given (hbase : store.base = m.toBaseline)
    (h : materializeWithin store declaration tx env codec judges = .ok s) (g : Given) :
    Ready m declaration (s.given g) := by
  have hopens := materializeWithin_ok h
  refine ⟨hopens.base.trans hbase, hopens.tabled.given g, ?_⟩
  rw [hopens.opened]
  rfl

theorem places_of_run {ops : List SessionOp} (h : Ready m declaration s)
    (hrun : s.run ops = .ok t) :
    places declaration resource id t + along (burnedPlaces resource id) s ops =
      places declaration resource id s + along (mintedPlaces resource id) s ops := by
  induction ops generalizing s with
  | nil =>
    cases hrun
    rfl
  | cons op ops ih =>
    unfold run at hrun
    rw [foldlM_cons] at hrun
    obtain ⟨u, hu, hrest⟩ := bind_ok.mp hrun
    obtain ⟨⟨u', a⟩, hstep, rfl⟩ := map_ok.mp hu
    have hfirst := places_of_step resource id h.base h.tabled h.paired hstep
    have hlast := ih (h.step hstep) hrest
    simp only [along, hstep]
    omega

end

/-- Along every run of a session the places of an id change by its mints and burns alone: at
each operation, and so over the run. -/
theorem instances_are_conserved_one_by_one {m : MemoryStore}
    {s t : Session} {ops : List SessionOp} (hbase : store.base = m.toBaseline)
    (hopen : materializeWithin store declaration tx env codec judges = .ok s) (g : Given)
    (hrun : (s.given g).run ops = .ok t) (resource : ResourceAddr) (id : ℕ) :
    places declaration resource id t + along (burnedPlaces resource id) (s.given g) ops =
        places declaration resource id (s.given g) + along (mintedPlaces resource id)
          (s.given g) ops ∧
      ∀ op u a, t.step op = .ok (u, a) →
        places declaration resource id u + burnedPlaces resource id t op =
          places declaration resource id t + mintedPlaces resource id t op := by
  have hready := Ready.given hbase hopen g
  have hend := hready.run hrun
  exact ⟨places_of_run resource id hready hrun, fun op u a hstep =>
    places_of_step resource id hend.base hend.tabled hend.paired hstep⟩

def badge : ResourceAddr := .numbered 7

def badgeHolder : Address := ⟨1, .principal⟩

def badgeFiling : Declaration :=
  declaring [⟨⟨.range badgeHolder 0 0 100 4, .write .both⟩, some badge, none, none⟩]

def badgeRun : List SessionOp :=
  [.grantIssuance [⟨badge, .nonFungible, .either⟩], .mintInstances 0 [3, 5], .rangePut 0 0 0 [1],
    .rangeTake 0 0 [5], .burn 1]

theorem badges_are_conserved_one_by_one :
    ∃ s t, opensOver .new badgeFiling = .ok s ∧ (s.given .plain).run badgeRun = .ok t ∧
      (places badgeFiling badge 3 t = 1 ∧ places badgeFiling badge 5 t = 0) ∧
      places badgeFiling badge 5 t +
          along (burnedPlaces badge 5) (s.given .plain) badgeRun =
        places badgeFiling badge 5 (s.given .plain) +
          along (mintedPlaces badge 5) (s.given .plain) badgeRun := by
  obtain ⟨s, t, hopen, hrun, hplaces⟩ := @exists_run .new badgeFiling
    .plain badgeRun (fun _ t =>
      decide (places badgeFiling badge 3 t = 1 ∧ places badgeFiling badge 5 t = 0))
        (by decide +kernel)
  exact ⟨s, t, hopen, hrun, of_decide_eq_true hplaces,
    (instances_are_conserved_one_by_one rfl hopen _ hrun badge 5).1⟩

end HyperscaleVm.Kernel
