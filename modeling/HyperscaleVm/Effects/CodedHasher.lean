import HyperscaleVm.Effects.Derive

/-!
# A hasher whose digests are codes

Each value is written as a list of numbers no other value's list begins with, and a list
of numbers as one number.
-/

namespace HyperscaleVm.Effects
open List
open Std (ExtTreeMap)

def EdgeContent.code : EdgeContent → List ℕ
  | .fungible => [0]
  | .nonFungible ids => 1 :: ids.length :: ids

mutual

def Value.code : Value → List ℕ
  | .bool b => [0, b.toNat]
  | .u64 n => [1, n]
  | .u128 n => [2, n]
  | .u256 n => [3, n]
  | .bytes bs => 4 :: bs.length :: bs
  | .address a => 5 :: a.bytes
  | .key k => 6 :: k.bytes
  | .tuple vs => 7 :: vs.code
  | .list vs => 8 :: vs.code
  | .bucket resource content => 9 :: (resource.1.bytes ++ content.code)

def Values.code : Values → List ℕ
  | .nil => [0]
  | .cons v vs => 1 :: (v.code ++ vs.code)

end

variable {s t : List ℕ}

theorem counted_append {as bs : List ℕ}
    (h : as.length :: (as ++ s) = bs.length :: (bs ++ t)) : as = bs ∧ s = t := by
  obtain ⟨hlen, h⟩ := cons.inj h
  exact append_inj h hlen

theorem EdgeContent.code_append {c c' : EdgeContent}
    (h : c.code ++ s = c'.code ++ t) : c = c' ∧ s = t := by
  cases c <;> cases c' <;> try exact absurd (cons.inj h).1 (by decide)
  case fungible.fungible => exact ⟨rfl, (cons.inj h).2⟩
  case nonFungible.nonFungible ids ids' =>
    obtain ⟨rfl, hst⟩ := counted_append (cons.inj h).2
    exact ⟨rfl, hst⟩

mutual

theorem Value.code_append (v w : Value) (s t : List ℕ) (h : v.code ++ s = w.code ++ t) :
    v = w ∧ s = t := by
  cases v <;> cases w <;> simp only [Value.code, cons_append, nil_append] at h <;>
    try exact absurd (cons.inj h).1 (by decide)
  all_goals replace h := (cons.inj h).2
  case bool.bool b b' =>
    obtain ⟨hb, rfl⟩ := cons.inj h
    cases b <;> cases b' <;> first | exact ⟨rfl, rfl⟩ | cases hb
  case u64.u64 => exact ⟨congrArg _ (cons.inj h).1, (cons.inj h).2⟩
  case u128.u128 => exact ⟨congrArg _ (cons.inj h).1, (cons.inj h).2⟩
  case u256.u256 => exact ⟨congrArg _ (cons.inj h).1, (cons.inj h).2⟩
  case bytes.bytes bs bs' =>
    obtain ⟨rfl, hst⟩ := counted_append h
    exact ⟨rfl, hst⟩
  case address.address a a' =>
    obtain ⟨ha, hst⟩ := append_inj h rfl
    rw [Address.bytes_injective ha]
    exact ⟨rfl, hst⟩
  case key.key k k' =>
    obtain ⟨hk, hst⟩ := append_inj h rfl
    rw [SubstateKey.bytes_injective hk]
    exact ⟨rfl, hst⟩
  case tuple.tuple vs vs' =>
    obtain ⟨rfl, hst⟩ := Values.code_append vs vs' s t h
    exact ⟨rfl, hst⟩
  case list.list vs vs' =>
    obtain ⟨rfl, hst⟩ := Values.code_append vs vs' s t h
    exact ⟨rfl, hst⟩
  case bucket.bucket r c r' c' =>
    rw [append_assoc, append_assoc] at h
    obtain ⟨hr, h⟩ := append_inj h rfl
    obtain ⟨rfl, hst⟩ := EdgeContent.code_append h
    obtain rfl : r = r' := Subtype.ext (Address.bytes_injective hr)
    exact ⟨rfl, hst⟩

theorem Values.code_append (vs ws : Values) (s t : List ℕ) (h : vs.code ++ s = ws.code ++ t) :
    vs = ws ∧ s = t := by
  cases vs <;> cases ws <;> try exact absurd (cons.inj h).1 (by decide)
  case nil.nil => exact ⟨rfl, (cons.inj h).2⟩
  case cons.cons v vs w ws =>
    simp only [Values.code, cons_append, append_assoc] at h
    obtain ⟨rfl, hrest⟩ := Value.code_append v w _ _ (cons.inj h).2
    obtain ⟨rfl, hst⟩ := Values.code_append vs ws s t hrest
    exact ⟨rfl, hst⟩

end

def Holding.code : Holding → List ℕ
  | .balance => [0]
  | .anyInstance => [1]
  | .instance_ id => [2, id]

theorem Holding.code_append {x y : Holding} (h : x.code ++ s = y.code ++ t) : x = y ∧ s = t := by
  cases x <;> cases y <;> simp_all [Holding.code]

def SealedLeaf.code : SealedLeaf → List ℕ
  | .claim ⟨subject, none⟩ => 0 :: subject.bytes
  | .claim ⟨subject, some id⟩ => 1 :: id :: subject.bytes
  | .held badge holding => 2 :: (badge.1.bytes ++ holding.code)

theorem SealedLeaf.code_append {x y : SealedLeaf} (h : x.code ++ s = y.code ++ t) :
    x = y ∧ s = t := by
  cases x with
  | claim c =>
    obtain ⟨subject, instance_⟩ := c
    cases y with
    | claim c' =>
      obtain ⟨subject', instance_'⟩ := c'
      cases instance_ <;> cases instance_' <;>
        simp only [SealedLeaf.code, cons_append, cons.injEq] at h <;>
        try exact absurd h.1 (by decide)
      · obtain ⟨hs, hst⟩ := append_inj h.2 rfl
        rw [Address.bytes_injective hs]
        exact ⟨rfl, hst⟩
      · obtain ⟨hs, hst⟩ := append_inj h.2.2 rfl
        rw [Address.bytes_injective hs, h.2.1]
        exact ⟨rfl, hst⟩
    | held badge holding => cases instance_ <;> simp [SealedLeaf.code] at h
  | held badge holding =>
    cases y with
    | claim c =>
      obtain ⟨subject, instance_⟩ := c
      cases instance_ <;> simp [SealedLeaf.code] at h
    | held badge' holding' =>
      simp only [SealedLeaf.code, cons_append, append_assoc] at h
      obtain ⟨hb, h⟩ := append_inj (cons.inj h).2 rfl
      obtain ⟨rfl, hst⟩ := Holding.code_append h
      rw [Subtype.ext (Address.bytes_injective hb)]
      exact ⟨rfl, hst⟩

mutual

def Rule.code : StoredRule → List ℕ
  | .require leaf => 0 :: leaf.code
  | .countOf count rules => 1 :: count :: Rule.codeAll rules

def Rule.codeAll : List StoredRule → List ℕ
  | [] => [0]
  | rule :: rules => 1 :: (Rule.code rule ++ Rule.codeAll rules)

end

mutual

theorem Rule.code_append (x y : StoredRule) (s t : List ℕ)
    (h : Rule.code x ++ s = Rule.code y ++ t) : x = y ∧ s = t := by
  cases x <;> cases y <;> try exact absurd (cons.inj h).1 (by decide)
  case require.require leaf leaf' =>
    obtain ⟨rfl, hst⟩ := SealedLeaf.code_append (cons.inj h).2
    exact ⟨rfl, hst⟩
  case countOf.countOf count rules count' rules' =>
    obtain ⟨rfl, hrules⟩ := cons.inj (cons.inj h).2
    obtain ⟨rfl, hst⟩ := Rule.codeAll_append rules rules' s t hrules
    exact ⟨rfl, hst⟩

theorem Rule.codeAll_append (xs ys : List StoredRule) (s t : List ℕ)
    (h : Rule.codeAll xs ++ s = Rule.codeAll ys ++ t) : xs = ys ∧ s = t := by
  cases xs <;> cases ys <;> try exact absurd (cons.inj h).1 (by decide)
  case nil.nil => exact ⟨rfl, (cons.inj h).2⟩
  case cons.cons x xs y ys =>
    simp only [Rule.codeAll, cons_append, append_assoc] at h
    obtain ⟨rfl, hrest⟩ := Rule.code_append x y _ _ (cons.inj h).2
    obtain ⟨rfl, hst⟩ := Rule.codeAll_append xs ys s t hrest
    exact ⟨rfl, hst⟩

end

def RuleBytes.code : RuleBytes → List ℕ
  | .encoded rule => 0 :: Rule.code rule
  | .garbled bytes => 1 :: bytes.length :: bytes

theorem RuleBytes.code_append {x y : RuleBytes} (h : x.code ++ s = y.code ++ t) :
    x = y ∧ s = t := by
  cases x <;> cases y <;> try exact absurd (cons.inj h).1 (by decide)
  case encoded.encoded rule rule' =>
    obtain ⟨rfl, hst⟩ := Rule.code_append rule rule' s t (cons.inj h).2
    exact ⟨rfl, hst⟩
  case garbled.garbled bytes bytes' =>
    obtain ⟨rfl, hst⟩ := counted_append (cons.inj h).2
    exact ⟨rfl, hst⟩

def grantsCode : List (GrantedBehaviour × RuleBytes) → List ℕ
  | [] => [0]
  | (behaviour, entry) :: rest => 1 :: behaviour.discriminant :: (entry.code ++ grantsCode rest)

theorem grantsCode_append (xs ys : List (GrantedBehaviour × RuleBytes)) (s t : List ℕ)
    (h : grantsCode xs ++ s = grantsCode ys ++ t) : xs = ys ∧ s = t := by
  induction xs generalizing ys <;> cases ys <;> try exact absurd (cons.inj h).1 (by decide)
  case nil.nil => exact ⟨rfl, (cons.inj h).2⟩
  case cons.cons x xs ih y ys =>
    simp only [grantsCode, cons_append, append_assoc] at h
    obtain ⟨hb, h⟩ := cons.inj (cons.inj h).2
    obtain ⟨hentry, hrest⟩ := RuleBytes.code_append h
    obtain ⟨rfl, hst⟩ := ih ys hrest
    rw [Prod.ext (GrantedBehaviour.discriminant_injective hb) hentry]
    exact ⟨rfl, hst⟩

abbrev digest : List ℕ → ℕ := Encodable.encode

def materialDigest (slot : SlotId) (material : List Value) : ℕ :=
  digest (slot :: (Values.ofList material).code)

theorem materialDigest_injective {slot slot' : SlotId} {material material' : List Value}
    (h : materialDigest slot material = materialDigest slot' material') :
    slot = slot' ∧ material = material' := by
  obtain ⟨hslot, hcode⟩ := cons.inj (Encodable.encode_injective h)
  have := (Values.code_append _ _ [] [] (congrArg (· ++ []) hcode)).1
  refine ⟨hslot, ?_⟩
  rw [← Values.toList_ofList material, this, Values.toList_ofList]

/-- The hasher of codes. Fresh locals stay under `2 ^ 128`, child locals above it. -/
def codedHasher : Hasher where
  child _ slot material := 2 ^ 128 + materialDigest slot material
  collection _ slot material := materialDigest slot material
  order _ slot material := materialDigest slot material
  resource namespace_ kind grants material :=
    digest (namespace_.bytes ++
      (kind.tag :: (grantsCode grants.toList ++ (Values.ofList material).code)))
  component record := digest (record.package :: record.salt :: (Values.ofList record.config).code)
  fresh identity node slot := digest [identity, node, slot]
  leafBytes record := some ([record.package] ++ (Values.ofList record.config).code ++ [record.salt])

theorem codedHasher_injective : codedHasher.Injective where
  child h := materialDigest_injective (Nat.add_left_cancel h)
  collection h := materialDigest_injective h
  fresh h := by
    simp only [codedHasher, freshLocal] at h
    omega
  resource h := by
    obtain ⟨hns, h⟩ := append_inj (Encodable.encode_injective h) rfl
    obtain ⟨hkind, h⟩ := cons.inj h
    obtain ⟨hgrants, h⟩ := grantsCode_append _ _ _ _ h
    have hmaterial := (Values.code_append _ _ [] [] (congrArg (· ++ []) h)).1
    refine ⟨Address.bytes_injective hns, ResourceKind.tag_injective hkind,
      ExtTreeMap.toList_inj.mp hgrants, ?_⟩
    simpa only [Values.toList_ofList] using congrArg Values.toList hmaterial

end HyperscaleVm.Effects
