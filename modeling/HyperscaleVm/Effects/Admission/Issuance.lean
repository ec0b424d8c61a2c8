import HyperscaleVm.Effects.Admission.Entries
import HyperscaleVm.Effects.Admission.Transaction

/-!
# Minting and founding
(`effects/src/admission/inject.rs`, `effects/src/publish/declaration.rs`)
-/

namespace HyperscaleVm.Effects.Admission
open Library List Option
open Publish

namespace AdmittedNode

variable {H : Hasher} {S : Setting H} (n : AdmittedNode S)

def recordOf (resource : ResourceAddr) : EffectTarget :=
  .point (resourceRecordKey H n.call.target.1 resource.1)

def GrantedMint (resource : ResourceAddr) : Prop :=
  ∃ grant ∈ n.judged.issues, grant.resource = resource ∧ grant.direction.mints = true

structure FoundsRecord (resource : ResourceAddr) : Prop where
  written : ∃ a ∈ n.judged.evaluated.ordered, a.effect.target = n.recordOf resource ∧
    a.effect.mode.kind = .write
  absent : ∃ c ∈ n.judged.evaluated.conditions,
    c.rule = .require (.presence (n.recordOf resource) .absent)

def MintsJustified : Prop :=
  ∀ resource, n.GrantedMint resource →
    n.Demanded resource .mint ∨ n.FoundsRecord resource

def Derives (issuance : Issuance) (resource : ResourceAddr) : Prop :=
  ∃ rules, issuance.grants.resolve H n.call.target.1 n.resolved.record.config = .ok rules ∧
    resource = grantingIssuedResource H n.call.target.1 issuance.kind rules issuance.mark

def FoundingFires (resource : ResourceAddr) : Prop :=
  ∃ l guard target moves denomination reach, n.frame.fires l ∧
    l.clause = .effect guard target (.write moves) denomination reach ∧
    target.meaning H n.frame.inputs l.bindings = some (n.recordOf resource) ∧
    (l.body.any (absentDoor target guard) = true ∨ n.frame.RequiresAbsent (n.recordOf resource))

/-- Every minting issuance the signature exempts founds its resource in the call, or the
entry is satisfied by the node's own claim or demanded by an issuance that is not exempt. -/
def FoundingTaken : Prop :=
  ∀ issuance ∈ n.resolved.signature.issues, issuance.direction.mints = true →
    foundsItsResource issuance n.resolved.signature = true →
    ∀ resource, n.Derives issuance resource →
      n.FoundingFires resource ∨ n.OwnClaimMeets resource .mint ∨
        ∃ other ∈ n.resolved.signature.issues, other.direction.mints = true ∧
          foundsItsResource other n.resolved.signature = false ∧ n.Derives other resource

def Answers (issuance : Issuance) (grant : IssuanceGrant) (injected : List Injected)
    (rules : ResourceGrants) : Prop :=
  issuance ∈ n.resolved.signature.issues ∧ grant ∈ n.judged.issues ∧
    (∀ i ∈ injected, i ∈ n.judged.injected) ∧
    IssuanceAnswer H n.resolved.signature n.call.target.1 n.resolved.record.config n.index issuance
      grant injected rules

theorem answers_each : ∃ each : List (IssuanceGrant × List Injected),
    (∀ issuance ∈ n.resolved.signature.issues, ∃ p ∈ each, ∃ rules,
      n.Answers issuance p.1 p.2 rules) ∧
    (∀ p ∈ each, ∃ issuance rules, n.Answers issuance p.1 p.2 rules) ∧
    n.parts.issues = each.map (·.1) ∧ n.parts.issuance = each.flatMap (·.2) := by
  obtain ⟨each, hmap, h⟩ := bind_ok.mp n.parts.issuanceFrom
  simp only [Pure.pure, Except.pure, Except.ok.injEq, Prod.mk.injEq] at h
  have hmap := mapM_ok.mp hmap
  have hone : ∀ issuance ∈ n.resolved.signature.issues, ∀ p ∈ each,
      injectIssuance H n.resolved.signature n.call.target.1 n.resolved.record.config n.index
        issuance = .ok p → ∃ rules, n.Answers issuance p.1 p.2 rules := by
    intro issuance hi p hp hone
    obtain ⟨rules, hanswer⟩ := injectIssuance_ok hone
    refine ⟨rules, hi, ?_, fun i hin => ?_, hanswer⟩
    · rw [n.parts.issues_eq, ← h.1]
      exact mem_append_left _ (mem_map_of_mem hp)
    · rw [n.parts.injected_eq, ← h.2]
      exact mem_append_left _ (mem_append_right _ (mem_flatMap.mpr ⟨p, hp, hin⟩))
  refine ⟨each, fun issuance hi => ?_, fun p hp => ?_, h.1.symm, h.2.symm⟩
  · obtain ⟨p, hp, hp'⟩ := exists_mem_right hmap hi
    exact ⟨p, hp, hone issuance hi p hp hp'⟩
  · obtain ⟨issuance, hi, hp'⟩ := exists_mem_left hmap hp
    exact ⟨issuance, hone issuance hi p hp hp'⟩

variable {issuance : Issuance}

theorem answers_of_issuance (hi : issuance ∈ n.resolved.signature.issues) :
    ∃ grant injected rules, n.Answers issuance grant injected rules := by
  obtain ⟨each, hall, -⟩ := n.answers_each
  obtain ⟨p, -, rules, hp⟩ := hall issuance hi
  exact ⟨p.1, p.2, rules, hp⟩

variable {resource : ResourceAddr}

theorem answers_of_grant (h : n.GrantedMint resource) :
    ∃ issuance grant injected rules, n.Answers issuance grant injected rules ∧
      grant.resource = resource ∧ issuance.direction.mints = true := by
  obtain ⟨grant, hgrant, hres, hmints⟩ := h
  obtain ⟨each, -, hall, hissues, -⟩ := n.answers_each
  rw [n.parts.issues_eq] at hgrant
  rcases mem_append.mp hgrant with hg | hg
  · rw [hissues] at hg
    obtain ⟨p, hp, rfl⟩ := mem_map.mp hg
    obtain ⟨issuance, rules, hanswer⟩ := hall p hp
    exact ⟨issuance, p.1, p.2, rules, hanswer, hres, hanswer.2.2.2.direction_eq ▸ hmints⟩
  · have hburn := (burn_of_destruction n.parts.destructionFrom).1 grant hg
    rw [hburn] at hmints
    cases hmints

variable {n} {grant : IssuanceGrant} {injected : List Injected} {rules : ResourceGrants}

theorem Answers.derives (h : n.Answers issuance grant injected rules) :
    n.Derives issuance grant.resource :=
  ⟨rules, h.2.2.2.resolved, h.2.2.2.resource_eq⟩

theorem Derives.unique {resource' : ResourceAddr}
    (h : n.Derives issuance resource) (h' : n.Derives issuance resource') :
    resource = resource' := by
  obtain ⟨rules, hr, rfl⟩ := h
  obtain ⟨rules', hr', rfl⟩ := h'
  rw [hr] at hr'
  cases hr'
  rfl

theorem Answers.demanded (h : n.Answers issuance grant injected rules)
    (hmints : issuance.direction.mints = true)
    (hfounds : foundsItsResource issuance n.resolved.signature = false) :
    n.Demanded grant.resource .mint := by
  obtain ⟨-, -, hsub, hanswer⟩ := h
  obtain ⟨entries, rfl, hall⟩ := hanswer.entries hfounds
  have hmint : GrantedBehaviour.mint ∈ issuance.direction.behaviours := by
    cases hd : issuance.direction <;> simp [hd, Issued.mints, Issued.behaviours] at hmints ⊢
  obtain ⟨o, ho, hentry⟩ := exists_mem_right hall hmint
  exact n.demanded_of_entry ⟨_, _, _, hanswer.resource_eq⟩ ho hsub hentry

theorem issuance_of_injected (hgate : checkSignature n.resolved.signature = .ok ()) {i : Injected}
    (hi : i ∈ n.judged.injected) (hmint : i.behaviour = .mint)
    (hasks : ∃ rule, i.asks = .entry rule) :
    ∃ issuance grant injected rules, n.Answers issuance grant injected rules ∧
      grant.resource = i.resource ∧ issuance.direction.mints = true ∧
      foundsItsResource issuance n.resolved.signature = false ∧
      ∃ bytes, rules[GrantedBehaviour.mint]? = some bytes := by
  rcases n.injected_source hi with h | h | h | h
  · obtain ⟨a, ha, hr⟩ := n.declared_of_reach h
    have hreaches := n.reach_of_gate hgate ha hr
    rw [hmint] at hreaches
    cases hreaches
  · obtain ⟨rule, hrule⟩ := hasks
    rcases h with h | h | h
    · rw [hrule] at h
      cases h
    all_goals rw [hmint] at h; cases h
  · obtain ⟨each, -, hall, -, hissuance⟩ := n.answers_each
    rw [hissuance] at h
    obtain ⟨p, hp, hip⟩ := mem_flatMap.mp h
    obtain ⟨issuance, rules, hanswer⟩ := hall p hp
    cases hfounds : foundsItsResource issuance n.resolved.signature with
    | true =>
      rw [hanswer.2.2.2.founds hfounds] at hip
      cases hip
    | false =>
      obtain ⟨entries, heq, hentries⟩ := hanswer.2.2.2.entries hfounds
      rw [heq] at hip
      obtain ⟨o, ho, hsome⟩ := mem_filterMap.mp hip
      obtain ⟨behaviour, hb, hentry⟩ := exists_mem_left hentries ho
      obtain ⟨bytes, hbytes, ⟨rfl, -⟩ | ⟨judged, rule, rfl, -⟩⟩ := injectedEntry_ok hentry
      · cases hsome
      · cases hsome
        obtain rfl : behaviour = .mint := hmint
        refine ⟨issuance, p.1, p.2, rules, hanswer, rfl, ?_, hfounds, bytes, hbytes⟩
        cases hd : issuance.direction <;> simp [hd, Issued.mints, Issued.behaviours] at hb ⊢
  · rw [hmint] at h
    cases h

theorem foundsRecord_iff_fires : n.FoundsRecord resource ↔ n.FoundingFires resource := by
  constructor
  · rintro ⟨⟨a, ha, htarget, hkind⟩, habsent⟩
    obtain ⟨l, guard, target, mode, denomination, reach, hl, hd⟩ :=
      fires_of_access n.parts.evaluated ha
    obtain ⟨moves, rfl⟩ := write_of_meaning hd.mode_eq hkind
    refine ⟨l, guard, target, moves, denomination, reach, hl, hd.clause_eq, ?_, .inr ?_⟩
    · rw [← htarget]
      exact hd.target_eq
    · exact (n.frame.requiresAbsent_iff _).mpr habsent
  · rintro ⟨l, guard, target, moves, denomination, reach, hl, hc, ht, hdoor⟩
    obtain ⟨a, ha, hd⟩ := access_of_fires n.parts.evaluated hl hc
    have htarget : a.effect.target = n.recordOf resource :=
      (some.inj (ht.symm.trans hd.target_eq)).symm
    have hmode : a.effect.mode = .write moves := (some.inj hd.mode_eq).symm
    refine ⟨⟨a, ha, htarget, by rw [hmode]; rfl⟩, (n.frame.requiresAbsent_iff _).mp ?_⟩
    rcases hdoor with hbody | habsent
    · exact n.frame.requiresAbsent_of_door hl (by rw [hc]; rfl) hbody ht
    · exact habsent

theorem mintsJustified_iff (hgate : checkSignature n.resolved.signature = .ok ()) :
    n.MintsJustified ↔ n.FoundingTaken := by
  constructor
  · intro h issuance hi hmints hfounds resource hderives
    obtain ⟨grant, injected, rules, hanswer⟩ := n.answers_of_issuance hi
    obtain rfl := hanswer.derives.unique hderives
    have hgrant : n.GrantedMint grant.resource :=
      ⟨grant, hanswer.2.1, rfl, hanswer.2.2.2.direction_eq ▸ hmints⟩
    rcases h _ hgrant with (⟨i, hin, hres, hb, hasks, -⟩ | hown) | hrecord
    · obtain ⟨other, g, js, rs, hother, hg, hm, hf, -⟩ := issuance_of_injected hgate hin hb hasks
      refine .inr (.inr ⟨other, hother.1, hm, hf, ?_⟩)
      rw [← hres, ← hg]
      exact hother.derives
    · exact .inr (.inl hown)
    · exact .inl (foundsRecord_iff_fires.mp hrecord)
  · intro h resource hgrant
    obtain ⟨issuance, grant, injected, rules, hanswer, rfl, hmints⟩ := n.answers_of_grant hgrant
    cases hfounds : foundsItsResource issuance n.resolved.signature with
    | false => exact .inl (hanswer.demanded hmints hfounds)
    | true =>
      rcases h issuance hanswer.1 hmints hfounds _ hanswer.derives with hf | hown | hother
      · exact .inr (foundsRecord_iff_fires.mpr hf)
      · exact .inl (.inr hown)
      · obtain ⟨other, ho, hm, hf, hd⟩ := hother
        obtain ⟨g, js, rs, hanswer'⟩ := n.answers_of_issuance ho
        rw [hd.unique hanswer'.derives]
        exact .inl (hanswer'.demanded hm hf)

theorem foundingTarget_meaning (h : n.Derives issuance resource) (ρ : List Value) :
    (foundingTarget issuance).meaning H n.frame.inputs ρ = some (n.recordOf resource) := by
  obtain ⟨rules, hrules, rfl⟩ := h
  have hself : selfResource H n.frame.inputs issuance.kind [.bytes issuance.mark] issuance.grants =
      .ok (.address (grantingIssuedResource H n.call.target.1 issuance.kind rules issuance.mark).1)
      := by
    unfold selfResource
    rw [show issuance.grants.resolve H n.frame.inputs.selfAddr n.frame.inputs.record.config =
      .ok rules from hrules]
    rfl
  rw [foundingTarget, selfChild_meaning]
  simp only [Exprs.meaning, Expr.meaning, bind_eq_bind, bind_some, hself,
    Except.toOption, map_some]
  rfl

theorem foundingTaken_of_unguarded
    (h : ∀ issuance ∈ n.resolved.signature.issues, ∃ moves denomination reach,
      .effect none (foundingTarget issuance) (.write moves) denomination reach ∈
        n.resolved.signature.effects ∧
      .requires none (.require (.presence (foundingTarget issuance) .absent)) ∈
        n.resolved.signature.effects) : n.FoundingTaken := by
  intro issuance hi _ _ resource hderives
  obtain ⟨moves, denomination, reach, hwrite, hdoor⟩ := h issuance hi
  refine .inl ⟨⟨_, _, []⟩, none, foundingTarget issuance, moves, denomination, reach,
    ⟨_, hwrite, .leaf rfl rfl⟩, rfl, foundingTarget_meaning hderives [], .inl ?_⟩
  exact List.any_eq_true.mpr ⟨_, hdoor, by simp [absentDoor]⟩

theorem granted_of_demanded (hgate : checkSignature n.resolved.signature = .ok ())
    (h : n.Demanded resource .mint) :
    ∃ rules bytes, GrantsOf H resource rules ∧ rules[GrantedBehaviour.mint]? = some bytes := by
  rcases h with ⟨i, hin, rfl, hb, hasks, -⟩ | ⟨rules, bytes, hrules, hbytes, -⟩
  · obtain ⟨issuance, g, js, rules, hanswer, hg, -, -, bytes, hbytes⟩ :=
      issuance_of_injected hgate hin hb hasks
    exact ⟨rules, bytes, ⟨_, _, _, hg ▸ hanswer.2.2.2.resource_eq⟩, hbytes⟩
  · exact ⟨rules, bytes, hrules, hbytes⟩

theorem issuer_of_grant (h : n.GrantedMint resource) : ∃ kind rules material,
      resource = grantingResourceAddress H n.call.target.1 kind rules material := by
  obtain ⟨issuance, grant, injected, rules, hanswer, rfl, -⟩ := n.answers_of_grant h
  exact ⟨_, _, _, hanswer.2.2.2.resource_eq⟩

theorem FoundsRecord.creates (h : n.FoundsRecord resource) : n.Creates (n.recordOf resource) := by
  obtain ⟨⟨a, ha, htarget, hkind⟩, c, hc, hrule⟩ := h
  constructor
  · exact mem_filterMap.mpr ⟨c.rule, mem_map_of_mem (n.parts.grown.conditions c hc),
      by rw [hrule]⟩
  · exact List.any_eq_true.mpr ⟨a, n.parts.grown.kept a ha, by simp [htarget, hkind]⟩

end AdmittedNode

def Transaction.BodiesFound {H : Hasher} (t : Transaction H) (σ' : Leaves) : Prop :=
  ∀ n ∈ t.nodes, ∀ resource, n.GrantedMint resource → n.FoundsRecord resource →
    σ' (resourceRecordKey H n.call.target.1 resource.1) ≠ none

def Capped (H : Hasher) (resource : ResourceAddr) : Prop :=
  ∃ rules, GrantsOf H resource rules ∧ rules[GrantedBehaviour.mint]? = none

section

variable {H : Hasher} (hH : H.Injective) {resource : ResourceAddr}

include hH

variable {S : Setting H}

theorem founds_of_capped (hgated : S.toEnvelope.Gated) {n : AdmittedNode S}
    (htaken : n.FoundingTaken) (hcapped : Capped H resource) (hgrant : n.GrantedMint resource) :
    n.FoundsRecord resource := by
  rcases (AdmittedNode.mintsJustified_iff (n.gated hgated)).mpr htaken resource hgrant with h | h
  · obtain ⟨rules, bytes, hrules, hbytes⟩ := AdmittedNode.granted_of_demanded (n.gated hgated) h
    obtain ⟨rules', hrules', hnone⟩ := hcapped
    rw [hrules.unique hH hrules', hnone] at hbytes
    cases hbytes
  · exact h

theorem record_eq {S' : Setting H} {n : AdmittedNode S} {n' : AdmittedNode S'}
    (h : n.GrantedMint resource) (h' : n'.GrantedMint resource) :
    n.call.target.1 = n'.call.target.1 := by
  obtain ⟨kind, rules, material, heq⟩ := AdmittedNode.issuer_of_grant h
  obtain ⟨kind', rules', material', heq'⟩ := AdmittedNode.issuer_of_grant h'
  exact (grantingResourceAddress_injective hH (heq.symm.trans heq')).1

omit hH in
theorem founded_once_within {t : Transaction H} {n n' : AdmittedNode ⟨t.envelope, t.flatOf⟩}
    (hn : n ∈ t.nodes) (hn' : n' ∈ t.nodes) (heq : n.call.target.1 = n'.call.target.1)
    (hf : n.FoundsRecord resource) (hf' : n'.FoundsRecord resource) : n.index = n'.index := by
  have hrecord : n.recordOf resource = n'.recordOf resource := by
    simp only [AdmittedNode.recordOf, heq]
  obtain ⟨i, hi, hni⟩ := mem_iff_getElem.mp hn
  obtain ⟨j, hj, hnj⟩ := mem_iff_getElem.mp hn'
  have hni' := t.traced.indexed i n (by rw [getElem?_eq_getElem hi, hni])
  have hnj' := t.traced.indexed j n' (by rw [getElem?_eq_getElem hj, hnj])
  rw [hni', hnj']
  -- an earlier of the two would have created the leaf the later needs absent
  have hapart := pairwise_iff_getElem.mp t.traced.apart
  rcases Nat.lt_trichotomy i j with hlt | heq | hgt
  · have := hapart i j hi hj hlt (n.recordOf resource) (hni ▸ hf.creates)
    rw [hnj, hrecord] at this
    exact absurd hf'.creates.1 this
  · exact heq
  · have := hapart j i hj hi hgt (n'.recordOf resource) (hnj ▸ hf'.creates)
    rw [hni, ← hrecord] at this
    exact absurd hf.creates.1 this

theorem not_founded_later {σ : ℕ → Leaves} {txs : ℕ → Transaction H}
    (hrun : ∀ k, (txs k).Commits (σ k) (σ (k + 1)))
    (hdoored : ∀ k, ∀ n ∈ (txs k).nodes, n.frame.ElsewhereDoored)
    (hbodies : ∀ k, (txs k).BodiesFound (σ (k + 1))) {k k' : ℕ} (hlt : k < k')
    {n : AdmittedNode ⟨(txs k).envelope, (txs k).flatOf⟩} (hn : n ∈ (txs k).nodes)
    {n' : AdmittedNode ⟨(txs k').envelope, (txs k').flatOf⟩} (hn' : n' ∈ (txs k').nodes)
    (heq : n.call.target.1 = n'.call.target.1) (hgrant : n.GrantedMint resource)
    (hf : n.FoundsRecord resource) : ¬n'.FoundsRecord resource := by
  rintro ⟨-, c, hc, hrule⟩
  have hpresent := hbodies k n hn resource hgrant hf
  have hstay := stays_of_present hH (fun k => (hrun k).frames)
    (fun k g ⟨m, hm, hg⟩ => hg ▸ hdoored k m hm) (.record n.call.target.1 (.address resource.1))
    hpresent (k' - (k + 1))
  rw [show k + 1 + (k' - (k + 1)) = k' by omega] at hstay
  have hmet := (hrun k').frames.met _ ⟨n', hn', rfl⟩ c hc _ .absent hrule
  rw [← heq] at hmet
  have habsent : σ k' (resourceRecordKey H n.call.target.1 resource.1) = none := by
    simpa [metBy] using hmet
  exact hpresent (hstay.symm.trans habsent)

/-- A node's mints are justified exactly where its exempt issuances found in the call; and
in a run of such nodes, whose creating writes are doored and whose founding bodies write the
record, a resource granting no mint is minted in one call. -/
theorem mints_justified_iff_founding_taken :
    (∀ (S : Setting H), S.toEnvelope.Gated → ∀ n : AdmittedNode S,
        n.MintsJustified ↔ n.FoundingTaken) ∧ ∀ (σ : ℕ → Leaves) (txs : ℕ → Transaction H),
        (∀ k, (txs k).Commits (σ k) (σ (k + 1))) →
        (∀ k, ∀ n ∈ (txs k).nodes, n.frame.ElsewhereDoored ∧ n.FoundingTaken) →
        (∀ k, (txs k).BodiesFound (σ (k + 1))) → ∀ resource, Capped H resource →
        ∀ k k', ∀ n ∈ (txs k).nodes, ∀ n' ∈ (txs k').nodes, n.GrantedMint resource →
          n'.GrantedMint resource → k = k' ∧ n.index = n'.index := by
  refine ⟨fun S hgated n => AdmittedNode.mintsJustified_iff (n.gated hgated), ?_⟩
  intro σ txs hrun hmeets hbodies resource hcapped k k' n hn n' hn' hgrant hgrant'
  have hf := founds_of_capped hH (txs k).gated (hmeets k n hn).2 hcapped hgrant
  have hf' := founds_of_capped hH (txs k').gated (hmeets k' n' hn').2 hcapped hgrant'
  have heq := record_eq hH hgrant hgrant'
  have hdoored := fun k n hn => (hmeets k n hn).1
  rcases Nat.lt_trichotomy k k' with hlt | rfl | hgt
  · exact absurd hf' (not_founded_later hH hrun hdoored hbodies hlt hn hn' heq hgrant hf)
  · exact ⟨rfl, founded_once_within hn hn' heq hf hf'⟩
  · exact absurd hf (not_founded_later hH hrun hdoored hbodies hgt hn' hn heq.symm hgrant' hf')

end

def coinage : Issuance := ⟨[1], .fungible, .minted, .nil⟩

def coinFounded (guard : Option Expr) : MethodSignature :=
  { MethodSignature.empty with
    params := [.u64]
    issues := [coinage]
    effects := [
      .effect guard (foundingTarget coinage) (.write .both) none none,
      .requires guard (.require (.presence (foundingTarget coinage) .absent))] }

def coinEnvelope (guard : Option Expr) : Envelope :=
  .calling [⟨⟨boxInstance, rfl⟩, "coin", [.literal (.u64 1)], []⟩] [("coin", coinFounded guard)]

def isZero : Expr := .eq (.arg 0) (.literal (.u64 0))

def coinResource : ResourceAddr := grantingIssuedResource codedHasher boxInstance .fungible ∅ [1]

theorem coinResource_capped : Capped codedHasher coinResource := ⟨∅, ⟨_, _, _, rfl⟩, rfl⟩

theorem guarded_founding_mints_unfounded :
    ∃ t : Transaction codedHasher, t.envelope = coinEnvelope (some isZero) ∧
      ∃ n ∈ t.nodes, ¬n.MintsJustified := by
  have hrun : passes (admitIntents codedHasher (coinEnvelope (some isZero))) (fun a =>
      (a.calls.map fun call => call.issues) = [[⟨coinResource, .fungible, .minted⟩]] &&
        a.declaration.ordered.all fun access => access.effect.mode.kind = .read) = true := by
    decide +kernel
  obtain ⟨a, ha, h⟩ := passes_iff.mp hrun
  simp only [Bool.and_eq_true, decide_eq_true_eq, List.all_eq_true] at h
  obtain ⟨hissues, hreads⟩ := h
  have hgated : (coinEnvelope (some isZero)).Gated := running_gated (by decide)
  obtain ⟨t, hV, rfl⟩ := transaction_of_admitted hgated ha
  refine ⟨t, hV, ?_⟩
  rw [t.calls_eq, t.traced.issues] at hissues
  obtain ⟨n, hnodes, hn⟩ := map_eq_singleton_iff.mp hissues
  refine ⟨n, by simp [hnodes], fun hjustified => ?_⟩
  rcases hjustified coinResource ⟨_, hn ▸ mem_singleton.mpr rfl, rfl, rfl⟩ with hd | hf
  · obtain ⟨rules, bytes, hrules, hbytes⟩ := AdmittedNode.granted_of_demanded (n.gated t.gated) hd
    obtain ⟨rules', hrules', hnone⟩ := coinResource_capped
    rw [hrules.unique codedHasher_injective hrules', hnone] at hbytes
    cases hbytes
  · obtain ⟨access, haccess, -, hkind⟩ := hf.written
    have hmem : access ∈ t.admitted.declaration.ordered := by
      refine t.signedIn.kept _ ?_
      rw [t.traced.ordered, hnodes]
      simpa using n.parts.grown.kept access haccess
    rw [hreads access hmem] at hkind
    cases hkind

def coinConfig : SubstateKey := childKey codedHasher boxInstance CONFIG []

def coinRecord : SubstateKey := resourceRecordKey codedHasher boxInstance coinResource.1

def coinLeaves : ℕ → Leaves
  | 0 => fun key => if key = coinConfig then some [] else none
  | _ + 1 => fun key => if key = coinConfig ∨ key = coinRecord then some [] else none

theorem coin_transaction : ∃ t : Transaction codedHasher,
    t.Commits (coinLeaves 0) (coinLeaves 1) ∧ ∃ n, t.nodes = [n] ∧
      n.judged.issues = [⟨coinResource, .fungible, .minted⟩] ∧
      n.resolved.signature = coinFounded none := by
  have hrun : passes (admitIntents codedHasher (coinEnvelope none)) (fun a =>
      (a.calls.map fun call => call.issues) = [[⟨coinResource, .fungible, .minted⟩]] &&
        (a.declaration.conditions.all fun c =>
          c.rule = .require (.presence (.point coinConfig) .present) ||
            c.rule = .require (.presence (.point coinRecord) .absent)) &&
        a.declaration.ordered.any fun access =>
          access.effect.target = .point coinRecord && access.effect.mode.kind = .write) = true := by
    decide +kernel
  obtain ⟨a, ha, h⟩ := passes_iff.mp hrun
  simp only [Bool.and_eq_true, decide_eq_true_eq, List.all_eq_true, List.any_eq_true,
    Bool.or_eq_true] at h
  obtain ⟨⟨hissues, hconditions⟩, access, haccess, htarget, hkind⟩ := h
  have hgated : (coinEnvelope none).Gated := running_gated (by decide)
  obtain ⟨t, hV, rfl⟩ := transaction_of_admitted hgated ha
  rw [t.calls_eq, t.traced.issues] at hissues
  obtain ⟨n, hnodes, hn⟩ := map_eq_singleton_iff.mp hissues
  have hapart : coinRecord ≠ coinConfig := by decide +kernel
  refine ⟨t, ⟨fun c hc key expect hrule => ?_, fun key hchange => ?_⟩, n, hnodes, hn, ?_⟩
  · rcases hconditions c hc with h | h <;> rw [hrule] at h <;> cases h
    · simp [coinLeaves, metBy]
    · simp [coinLeaves, metBy, hapart]
  · refine .inr ⟨access, haccess, ?_, by rw [hkind]; decide⟩
    rw [htarget]
    by_contra hne
    refine hchange ?_
    simp [coinLeaves, show key ≠ coinRecord from fun h => hne (h ▸ rfl)]
  · obtain ⟨-, digest, package, name, hpackage, hmem⟩ := resolveCall_ok n.resolvedFrom
    rw [show (Setting.toEnvelope ⟨t.envelope, t.flatOf⟩ : Envelope) = coinEnvelope none from hV]
      at hpackage
    cases hpackage
    exact congrArg Prod.snd (mem_singleton.mp hmem)

theorem unguarded_founding_mints_once : ∃ (σ : ℕ → Leaves) (txs : ℕ → Transaction codedHasher),
      (∀ k, (txs k).Commits (σ k) (σ (k + 1))) ∧
      (∃ n ∈ (txs 0).nodes, n.GrantedMint coinResource ∧ n.MintsJustified) ∧
      ∀ k k', ∀ n ∈ (txs k).nodes, ∀ n' ∈ (txs k').nodes, n.GrantedMint coinResource →
        n'.GrantedMint coinResource → k = k' ∧ n.index = n'.index := by
  obtain ⟨t, hcommits, n, hnodes, hissues, hsignature⟩ := coin_transaction
  obtain ⟨e, hempty, hnone⟩ := empty_transaction codedHasher
  let txs : ℕ → Transaction codedHasher
    | 0 => t
    | _ + 1 => e
  have hgrant : n.GrantedMint coinResource :=
    ⟨_, hissues ▸ mem_singleton.mpr rfl, rfl, rfl⟩
  have htaken : n.FoundingTaken := by
    refine AdmittedNode.foundingTaken_of_unguarded fun issuance hi => ?_
    rw [hsignature] at hi ⊢
    obtain rfl := mem_singleton.mp hi
    exact ⟨.both, none, none, by simp [coinFounded], by simp [coinFounded]⟩
  have hdoored : n.frame.ElsewhereDoored := by
    refine n.frame.elsewhereDoored_of_no_loops ?_
    rw [hsignature]
    simp [coinFounded, Clause.isLoop]
  have hrun : ∀ k, (txs k).Commits (coinLeaves k) (coinLeaves (k + 1)) := by
    rintro (_ | k)
    · exact hcommits
    · exact ⟨by simp [txs, hnone], fun key hchange => absurd rfl hchange⟩
  have hmeets : ∀ k, ∀ m ∈ (txs k).nodes, m.frame.ElsewhereDoored ∧ m.FoundingTaken := by
    rintro (_ | k) m hm
    · obtain rfl : m = n := by simpa [txs, hnodes] using hm
      exact ⟨hdoored, htaken⟩
    · change m ∈ e.nodes at hm
      rw [hempty] at hm
      cases hm
  have hbodies : ∀ k, (txs k).BodiesFound (coinLeaves (k + 1)) := by
    rintro (_ | k) m hm resource hm' -
    · obtain rfl : m = n := by simpa [txs, hnodes] using hm
      have htarget : boxInstance = m.call.target.1 := by
        obtain ⟨kind, rules, material, heq⟩ := AdmittedNode.issuer_of_grant hgrant
        exact (grantingResourceAddress_injective codedHasher_injective heq).1
      obtain ⟨grant, hg, rfl, -⟩ := hm'
      rw [hissues] at hg
      obtain rfl := mem_singleton.mp hg
      rw [← htarget]
      simp [coinLeaves, coinRecord]
    · change m ∈ e.nodes at hm
      rw [hempty] at hm
      cases hm
  have hresults := mints_justified_iff_founding_taken codedHasher_injective
  refine ⟨coinLeaves, txs, hrun, ⟨n, by simp [txs, hnodes], hgrant, ?_⟩, ?_⟩
  · exact (hresults.1 _ t.gated n).mpr htaken
  · exact hresults.2 coinLeaves txs hrun hmeets hbodies coinResource coinResource_capped

end HyperscaleVm.Effects.Admission
