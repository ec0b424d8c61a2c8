import HyperscaleVm.Effects.Admission.Evidence
import HyperscaleVm.Effects.Admission.Tree

/-!
# Where an accepted tree's authority comes from

A presented claim is followed back to whoever vouches for it: the accounts its intent acts
as, an earlier node of its intent, or a socket, whose fills climb from composer to
composer until one of them grants an account it acts as or the proof of a node of its own.
-/

namespace HyperscaleVm.Effects.Admission
open List Option Library

def Interleaved.Emitted (s : Interleaved) (intent local_ : ℕ) : Prop :=
  ∃ next, s.cursor[intent]? = some next ∧ local_ < next

structure Interleaved.Emits (intents : List IntentView) (s s' : Interleaved) where
  index : ℕ
  view : IntentView
  next : ℕ
  node : GraphNode
  viewFrom : intents[index]? = some view
  nextFrom : s.cursor[index]? = some next
  nodeFrom : view.nodes[next]? = some node
  waited : ∀ w ∈ waitsOn view node, s.Emitted w.1 w.2
  cursor : s'.cursor = s.cursor.modify index (· + 1)
  flatOf : s'.flatOf = s.flatOf.modify index fun flat => flat.set next s.order.length
  order : s'.order = s.order ++ [(index, next)]

variable {intents : List IntentView} {s : Interleaved} {s' : Interleaved}

theorem step_emits (h : s.step intents = .ok s') : Nonempty (s.Emits intents s') := by
  unfold Interleaved.step at h
  split at h
  · cases h
  rename_i view index hfound
  have hready := find?_some hfound
  have hmem := mem_of_find?_eq_some hfound
  rw [mem_zipIdx_iff_getElem?] at hmem
  unfold Interleaved.ready at hready
  split at hready
  · cases hready
  rename_i node hnode
  obtain ⟨next, hnext, hnode⟩ := bind_eq_some_iff.mp hnode
  simp only [hnext, getD_some] at h
  split at h
  · cases h
    refine ⟨⟨index, view, next, node, hmem, hnext, hnode, fun w hw => ?_, rfl, rfl, rfl⟩⟩
    have hwaited := all_eq_true.mp hready w hw
    cases hcursor : s.cursor[w.1]? with
    | none => simp [hcursor] at hwaited
    | some emitted => exact ⟨emitted, hcursor, by simpa [hcursor] using hwaited⟩
  · cases h

structure Interleaved.Placed (intents : List IntentView) (s : Interleaved) : Prop where
  widths : ∀ (intent : ℕ) (view : IntentView), intents[intent]? = some view →
    ∃ flat : List ℕ, s.flatOf[intent]? = some flat ∧ flat.length = view.nodes.length
  placed : ∀ (intent local_ : ℕ), s.Emitted intent local_ →
    ∃ p : ℕ, ((s.flatOf[intent]?).bind fun flat => flat[local_]?) = some p ∧
      s.order[p]? = some (intent, local_)
  emitted : ∀ at_ ∈ s.order, s.Emitted at_.1 at_.2
  waited : ∀ at_ ∈ s.order, ∀ (view : IntentView) (node : GraphNode),
    intents[at_.1]? = some view →
    view.nodes[at_.2]? = some node → ∀ w ∈ waitsOn view node, s.Emitted w.1 w.2

namespace Interleaved.Emits

variable {intents : List IntentView} {s s' : Interleaved} (e : s.Emits intents s')

include e

theorem emitted_iff (intent local_ : ℕ) : s'.Emitted intent local_ ↔
      s.Emitted intent local_ ∨ (intent = e.index ∧ local_ = e.next) := by
  unfold Interleaved.Emitted
  rw [e.cursor, getElem?_modify]
  by_cases hi : e.index = intent
  · subst hi
    simp only [if_true, e.nextFrom, Option.map_eq_map, Option.map_some, Option.some.injEq,
      exists_eq_left', true_and]
    omega
  · simp [hi, Ne.symm hi]

theorem placed (h : s.Placed intents) : s'.Placed intents where
  widths intent view hview := by
    obtain ⟨flat, hflat, hlen⟩ := h.widths intent view hview
    rw [e.flatOf, getElem?_modify, hflat]
    by_cases hi : e.index = intent
    · exact ⟨flat.set e.next s.order.length, by simp [hi], by simpa using hlen⟩
    · exact ⟨flat, by simp [hi], hlen⟩
  placed intent local_ hemitted := by
    rw [e.flatOf, getElem?_modify, e.order]
    rcases (e.emitted_iff intent local_).mp hemitted with hold | ⟨rfl, rfl⟩
    · obtain ⟨p, hp, horder⟩ := h.placed intent local_ hold
      obtain ⟨flat, hflat, hlocal⟩ := bind_eq_some_iff.mp hp
      refine ⟨p, ?_, getElem?_of_prefix (prefix_append _ _) horder⟩
      by_cases hi : e.index = intent
      · subst hi
        obtain ⟨next, hnext, hlt⟩ := hold
        obtain rfl := Option.some.inj (e.nextFrom.symm.trans hnext)
        simp [hflat, hlt.ne', hlocal]
      · simp [hi, hflat, hlocal]
    · obtain ⟨flat, hflat, hlen⟩ := h.widths _ _ e.viewFrom
      have hnext : e.next < flat.length := hlen ▸ (List.getElem?_eq_some_iff.mp e.nodeFrom).1
      exact ⟨s.order.length, by simp [hflat, hnext], by simp⟩
  emitted at_ hat := by
    rw [e.order, mem_append, mem_singleton] at hat
    rw [e.emitted_iff]
    rcases hat with hold | rfl
    · exact .inl (h.emitted at_ hold)
    · exact .inr ⟨rfl, rfl⟩
  waited at_ hat view node hview hnode w hw := by
    rw [e.order, mem_append, mem_singleton] at hat
    rw [e.emitted_iff]
    rcases hat with hold | rfl
    · exact .inl (h.waited at_ hold view node hview hnode w hw)
    · obtain rfl := Option.some.inj (e.viewFrom.symm.trans hview)
      obtain rfl := Option.some.inj (e.nodeFrom.symm.trans hnode)
      exact .inl (e.waited w hw)

end Interleaved.Emits

theorem passes_placed {left : ℕ}
    (h : Interleaved.passes intents left s = .ok s') (hs : s.Placed intents) :
    s'.Placed intents := by
  induction left generalizing s with
  | zero =>
    cases h
    exact hs
  | succ left ih =>
    obtain ⟨t, hstep, h⟩ := bind_ok.mp h
    obtain ⟨e⟩ := step_emits hstep
    exact ih h (e.placed hs)

theorem start_placed (intents : List IntentView) : (Interleaved.start intents).Placed intents := by
  refine ⟨fun intent view hview => ?_, fun intent local_ hemitted => ?_, ?_, ?_⟩
  · exact ⟨view.nodes.map fun _ => 0, by simp [Interleaved.start, hview], by simp⟩
  · obtain ⟨next, hnext, hlt⟩ := hemitted
    simp only [Interleaved.start, getElem?_map, map_eq_some_iff] at hnext
    obtain ⟨-, -, rfl⟩ := hnext
    omega
  all_goals simp [Interleaved.start]

theorem interleave_placed (h : interleave intents = .ok s) : s.Placed intents :=
  passes_placed h (start_placed intents)

namespace Flattened

variable (flat : Flattened)

def ActsAs (intent : ℕ) (account : Address) : Prop :=
  ∃ found, flat.intents[intent]? = some found ∧ account ∈ found.accounts

def Composes (composer intent : ℕ) : Prop :=
  ∃ position, flat.parent[intent]? = some (some (composer, position))

def Ancestor : ℕ → ℕ → Prop := Relation.TransGen flat.Composes

structure Wires (intent socket : ℕ) (claim : Claim) (composer : ℕ) (source : ClaimRef) : Prop where
  declared : ∃ declaring, flat.intents[intent]? = some declaring ∧
    declaring.sockets[socket]? = some (.authority claim)
  wired : ∃ position holder, flat.parent[intent]? = some (some (composer, position)) ∧
    flat.intents[composer]? = some holder ∧
    ((holder.members[position]?).bind fun member => member.2[socket]?) = some (.authority source)

/-- The fills of an authority socket, from composer to composer: every socket on the way
declares the same claim, and the last composer grants an account it acts as or the proof of
a node of its own. -/
inductive FillChain (flat : Flattened) : ℕ → ℕ → Claim → ℕ → Fill → Prop where
  | account {intent socket composer : ℕ} {account : Address}
      (link : flat.Wires intent socket (.ofSubject account) composer (.account account))
      (acts : flat.ActsAs composer account) :
      FillChain flat intent socket (.ofSubject account) composer (.account account)
  | node {intent socket composer producer : ℕ} {claim : Claim}
      (link : flat.Wires intent socket claim composer (.node producer)) :
      FillChain flat intent socket claim composer (.claim composer producer)
  | passed {intent socket composer passed ancestor : ℕ} {claim : Claim} {fill : Fill}
      (link : flat.Wires intent socket claim composer (.socket passed))
      (above : FillChain flat composer passed claim ancestor fill) :
      FillChain flat intent socket claim ancestor fill

variable {flat} {intent socket ancestor : ℕ} {claim : Claim}

theorem Wires.composes {composer : ℕ} {source : ClaimRef}
    (h : flat.Wires intent socket claim composer source) : flat.Composes composer intent := by
  obtain ⟨position, -, hparent, -⟩ := h.wired
  exact ⟨position, hparent⟩

theorem FillChain.climbs {fill : Fill} (h : flat.FillChain intent socket claim ancestor fill) :
    flat.Ancestor ancestor intent := by
  induction h with
  | account link | node link => exact .single link.composes
  | passed link _ ih => exact .tail ih link.composes

theorem FillChain.acts {account : Address}
    (h : flat.FillChain intent socket claim ancestor (.account account)) :
    flat.ActsAs ancestor account ∧ claim = .ofSubject account := by
  generalize hfill : Fill.account account = fill at h
  induction h with
  | account link acts =>
    cases hfill
    exact ⟨acts, rfl⟩
  | node => cases hfill
  | passed _ _ ih => exact ih hfill

theorem FillChain.prover {source producer : ℕ}
    (h : flat.FillChain intent socket claim ancestor (.claim source producer)) :
    source = ancestor := by
  generalize hfill : Fill.claim source producer = fill at h
  induction h with
  | account => cases hfill
  | node =>
    cases hfill
    rfl
  | passed _ _ ih => exact ih hfill

end Flattened

variable {flat : Flattened} {intent : ℕ}

theorem intentAt_ok {found : Intent} :
    flat.intentAt intent = .ok found ↔ flat.intents[intent]? = some found := by
  unfold Flattened.intentAt
  split
  all_goals
    rename_i heq
    simp [heq]

variable {socket : ℕ}

theorem wiring_ok {composer position : ℕ} {binding : Binding}
    (h : flat.wiring composer position socket = .ok binding) :
    ∃ holder, flat.intents[composer]? = some holder ∧
      ((holder.members[position]?).bind fun member => member.2[socket]?) = some binding := by
  obtain ⟨holder, hholder, h⟩ := bind_ok.mp h
  refine ⟨holder, intentAt_ok.mp hholder, ?_⟩
  split at h
  · rename_i heq
    cases h
    exact heq
  · cases h

theorem fill_chain {steps : ℕ} {filled : Fill}
    (h : fill flat steps intent socket = .ok filled) {declaring : Intent} {wanted : Claim}
    (hdeclaring : flat.intents[intent]? = some declaring)
    (hsocket : declaring.sockets[socket]? = some (.authority wanted)) :
    ∃ ancestor, flat.FillChain intent socket wanted ancestor filled := by
  induction steps generalizing intent socket declaring with
  | zero => cases h
  | succ steps ih =>
    simp only [fill] at h
    split at h
    · cases h
    · cases h
    rename_i composer position hparent
    obtain ⟨declaring', hdeclaring', h⟩ := bind_ok.mp h
    obtain rfl := Option.some.inj (hdeclaring.symm.trans (intentAt_ok.mp hdeclaring'))
    obtain ⟨binding, hbinding, h⟩ := bind_ok.mp h
    obtain ⟨holder, hholder, hwired⟩ := wiring_ok hbinding
    rw [hsocket] at h
    cases binding with
    | value source => cases h
    | authority source =>
      have link : flat.Wires intent socket wanted composer source :=
        ⟨⟨declaring, hdeclaring, hsocket⟩, position, holder, hparent, hholder, hwired⟩
      obtain ⟨holder', hholder', h⟩ := bind_ok.mp h
      obtain rfl := Option.some.inj (hholder.symm.trans (intentAt_ok.mp hholder'))
      cases source with
      | node producer =>
        obtain ⟨-, h⟩ := seq_ok.mp h
        cases h
        exact ⟨composer, .node link⟩
      | account account =>
        obtain ⟨hacts, h⟩ := seq_ok.mp h
        obtain ⟨hclaim, h⟩ := seq_ok.mp h
        cases h
        obtain rfl : wanted = .ofSubject account := by simpa using hclaim
        exact ⟨composer, .account link ⟨holder, hholder, by simpa using hacts⟩⟩
      | socket passed =>
        dsimp only at h
        split at h
        · rename_i carried hcarried
          obtain ⟨hclaim, hpassed⟩ := seq_ok.mp h
          obtain rfl : wanted = carried := by simpa using hclaim
          obtain ⟨ancestor, hchain⟩ := ih hpassed hholder hcarried
          exact ⟨ancestor, .passed link hchain⟩
        · cases h

def SignedIn (H : Hasher) (flat : Flattened) (declaration : Declaration) (intent : ℕ)
    (account : Address) : Prop :=
  ∃ found, flat.intents[intent]? = some found ∧
    (⟨.require (.signed (childKey H account AUTH []) (found.attestedBy.map Claim.ofSubject)),
      none⟩ : Condition) ∈ declaration.conditions

/-- Who vouches for a claim that node `j` of the order, a node of `intent`, presents. -/
inductive Justified (H : Hasher) (flat : Flattened) (order : List (ℕ × ℕ))
    (proven : List (List Claim)) (declaration : Declaration) (j intent : ℕ) (claim : Claim) :
    Prop where
  | account {account : Address} (is : claim = .ofSubject account)
      (acts : flat.ActsAs intent account) (signed : SignedIn H flat declaration intent account)
  | proof {i producer : ℕ} {made : List Claim} (before : i < j)
      (placed : order[i]? = some (intent, producer)) (proves : proven[i]? = some made)
      (holds : claim ∈ made)
  | grantedAccount {socket ancestor : ℕ} {account : Address} (is : claim = .ofSubject account)
      (chain : flat.FillChain intent socket claim ancestor (.account account))
      (above : flat.Ancestor ancestor intent) (acts : flat.ActsAs ancestor account)
      (signed : SignedIn H flat declaration ancestor account)
  | grantedProof {socket ancestor i producer : ℕ} {made : List Claim}
      (chain : flat.FillChain intent socket claim ancestor (.claim ancestor producer))
      (above : flat.Ancestor ancestor intent) (before : i < j)
      (placed : order[i]? = some (ancestor, producer)) (proves : proven[i]? = some made)
      (holds : claim ∈ made)

structure AdmittedTree (H : Hasher) (N : IntentHasher) (tree : IntentTree) (identity : ℕ)
    (chain : ChainRecords) (ruleOf : List ℕ → Option StoredRule) (a : Admitted) where
  resolutions : List Resolution
  admitted : Admitted
  resolvedFrom : resolveTree (walk tree.root) = .ok resolutions
  walk : AdmittedWalk H
    (envelopeOf N tree (walk tree.root) resolutions identity chain ruleOf) admitted
  nodes : a.nodes = admitted.nodes
  calls : a.calls = admitted.calls
  frames : a.frames = admitted.frames
  conditions : a.declaration.conditions = admitted.declaration.conditions

section

variable {H : Hasher} {N : IntentHasher} {tree : IntentTree} {identity : ℕ} {chain : ChainRecords}
  {ruleOf : List ℕ → Option StoredRule} {a : Admitted} {a' : Admitted}

theorem pushKernelEffect_ok {a : Admitted} {key : SubstateKey}
    (h : pushKernelEffect a key = .ok a') : { a' with declaration := a.declaration } = a ∧
      a'.declaration.conditions = a.declaration.conditions := by
  unfold pushKernelEffect at h
  dsimp only at h
  split at h
  · cases h
  · cases h
    exact ⟨rfl, rfl⟩

theorem foldlM_pushKernelEffect {a : Admitted} {keys : List SubstateKey}
    (h : keys.foldlM pushKernelEffect a = .ok a') : { a' with declaration := a.declaration } = a ∧
      a'.declaration.conditions = a.declaration.conditions := by
  induction keys generalizing a with
  | nil =>
    cases h
    exact ⟨rfl, rfl⟩
  | cons key keys ih =>
    rw [foldlM_cons] at h
    obtain ⟨a₁, hstep, h⟩ := bind_ok.mp h
    obtain ⟨hsame, hconditions⟩ := pushKernelEffect_ok hstep
    obtain ⟨hsame', hconditions'⟩ := ih h
    refine ⟨?_, hconditions'.trans hconditions⟩
    exact (congrArg (fun b : Admitted => { b with declaration := a.declaration }) hsame').trans
      hsame

variable {flat : Flattened}

theorem flatten_ok {root : Intent} (h : flatten root = .ok flat) : flat = walk root ∧
    (flat.intents.map fun intent => intent.nodes.length).sum ≤ MAX_MANIFEST_NODES ∧
    tryIndexed (checkIntent flat) flat.intents = .ok () := by
  unfold flatten at h
  obtain ⟨-, h⟩ := seq_ok.mp h
  obtain ⟨hnodes, h⟩ := seq_ok.mp h
  obtain ⟨hintents, h⟩ := seq_ok.mp h
  obtain ⟨-, h⟩ := seq_ok.mp h
  obtain ⟨-, h⟩ := seq_ok.mp h
  cases h
  exact ⟨rfl, by simpa using hnodes, hintents⟩

theorem admitTree_pushed (h : admitTree H N tree identity chain ruleOf = .ok a) :
    ∃ (t : AdmittedTree H N tree identity chain ruleOf a) (keys : List SubstateKey),
      keys.foldlM pushKernelEffect t.admitted = .ok a := by
  unfold admitTree at h
  obtain ⟨flat, hflat, h⟩ := bind_ok.mp h
  obtain ⟨-, h⟩ := seq_ok.mp h
  obtain ⟨-, h⟩ := seq_ok.mp h
  obtain ⟨-, h⟩ := seq_ok.mp h
  obtain ⟨resolutions, hresolutions, admitted, hadmitted, h⟩ := binds_ok.mp h
  obtain rfl := (flatten_ok hflat).1
  obtain ⟨W⟩ := admitIntents_ok hadmitted
  obtain ⟨hsame, hconditions⟩ := foldlM_pushKernelEffect h
  have hnodes : a.nodes = admitted.nodes := by rw [← hsame]
  have hcalls : a.calls = admitted.calls := by rw [← hsame]
  have hframes : a.frames = admitted.frames := by rw [← hsame]
  exact ⟨⟨resolutions, admitted, hresolutions, W, hnodes, hcalls, hframes, hconditions⟩, _, h⟩

theorem admitTree_ok (h : admitTree H N tree identity chain ruleOf = .ok a) :
    Nonempty (AdmittedTree H N tree identity chain ruleOf a) := by
  obtain ⟨t, -⟩ := admitTree_pushed h
  exact ⟨t⟩

variable {resolutions : List Resolution}

theorem resolveTree_fills (h : resolveTree flat = .ok resolutions) {k : ℕ} {resolution : Resolution}
    (hk : resolutions[k]? = some resolution) {r : ℕ} {filled : Fill}
    (hr : resolution.fills[r]? = some filled) : fill flat flat.intents.length k r = .ok filled := by
  unfold resolveTree at h
  obtain ⟨gives, -, fills, hfills, h⟩ := binds_ok.mp h
  cases h
  rw [getElem?_map, map_eq_some_iff] at hk
  obtain ⟨⟨own, ownGives⟩, hzip, rfl⟩ := hk
  have hown : fills[k]? = some own := (getElem?_zip_eq_some.mp hzip).1
  obtain ⟨⟨intent, at_⟩, hat, hresolved⟩ := mapM_at hfills hown
  obtain rfl : k = at_ := by
    rw [getElem?_zipIdx, map_eq_some_iff] at hat
    obtain ⟨found, -, heq⟩ := hat
    simpa using congrArg Prod.snd heq
  obtain ⟨socket, hsocket, hfill⟩ := mapM_at hresolved hr
  obtain rfl : r = socket := by
    obtain ⟨hlt, heq⟩ := List.getElem?_eq_some_iff.mp hsocket
    simpa using heq
  exact hfill

theorem resolveTree_length
    (h : resolveTree flat = .ok resolutions) : resolutions.length = flat.intents.length := by
  unfold resolveTree at h
  obtain ⟨gives, hgives, fills, hfills, h⟩ := binds_ok.mp h
  cases h
  have hgives := (mapM_ok.mp hgives).length_eq
  have hfills := (mapM_ok.mp hfills).length_eq
  rw [length_zipIdx] at hgives hfills
  rw [length_map, length_zip, ← hgives, ← hfills, Nat.min_self]

theorem signIns_signed {intents : List IntentView} {d d' : Declaration}
    (h : signIns H intents d = .ok d') {view : IntentView} (hview : view ∈ intents)
    {account : Address} (haccount : account ∈ view.accounts) :
    (⟨.require (.signed (childKey H account AUTH []) (view.attestedBy.map Claim.ofSubject)),
      none⟩ : Condition) ∈ d'.conditions := by
  have hmarks := (foldlM_marks (R := fun d d' => d.conditions ⊆ d'.conditions)
    (Q := fun (p : IntentView × Address) d =>
      (⟨.require (.signed (childKey H p.2 AUTH []) (p.1.attestedBy.map Claim.ofSubject)),
        none⟩ : Condition) ∈ d.conditions)
    (fun _ => List.Subset.refl _) (fun _ _ _ => List.Subset.trans) (fun _ _ _ hsub hmem =>
      hsub hmem)
    (fun d d' p _ hstep => ?_) h).2 (view, account)
  · exact hmarks (mem_flatMap.mpr ⟨view, hview, mem_map.mpr ⟨account, haccount, rfl⟩⟩)
  · unfold signIn at hstep
    dsimp only at hstep
    split at hstep
    · cases hstep
    · cases hstep
      exact ⟨subset_append_left _ _, by simp⟩

namespace AdmittedTree

variable (t : AdmittedTree H N tree identity chain ruleOf a)

def setting : Setting H :=
  ⟨envelopeOf N tree (Admission.walk tree.root) t.resolutions identity chain ruleOf,
    t.walk.interleaved.flatOf⟩

include t

variable {k : ℕ}

theorem signedIn {account : Address} (hacts : (Admission.walk tree.root).ActsAs k account) :
    SignedIn H (Admission.walk tree.root) a.declaration k account := by
  obtain ⟨intent, hintent, haccount⟩ := hacts
  refine ⟨intent, hintent, ?_⟩
  rw [t.conditions]
  have hk : k < t.resolutions.length := by
    rw [resolveTree_length t.resolvedFrom]
    exact (List.getElem?_eq_some_iff.mp hintent).1
  obtain ⟨resolution, hresolution⟩ : ∃ resolution, t.resolutions[k]? = some resolution :=
    ⟨_, getElem?_eq_getElem hk⟩
  have hview : viewOf N intent resolution ∈ t.setting.intents :=
    mem_of_getElem? (envelopeOf_view.mpr ⟨intent, resolution, hintent, hresolution, rfl⟩)
  exact signIns_signed t.walk.signed hview haccount

variable {intent local_ : ℕ}

theorem order_of_flat {i : ℕ} (hemitted : t.walk.interleaved.Emitted intent local_)
    (hflat : ((t.walk.interleaved.flatOf[intent]?).bind fun flat => flat[local_]?) = some i) :
    t.walk.interleaved.order[i]? = some (intent, local_) := by
  obtain ⟨p, hp, horder⟩ := (interleave_placed t.walk.interleavedFrom).placed intent local_ hemitted
  obtain rfl := Option.some.inj (hflat.symm.trans hp)
  exact horder

theorem justified_of_presents {j : ℕ} (p : WalkedAt t.setting t.walk.walked j (intent, local_))
    (hj : t.walk.interleaved.order[j]? = some (intent, local_)) {reference : ClaimRef}
    (hreference : reference ∈ p.lowered.call.evidence) {claims : List Claim}
    (hpresents : Presents t.setting p.lowered.view intent local_ p.before.proven reference claims)
    {claim : Claim} (hclaim : claim ∈ claims) :
    Justified H (Admission.walk tree.root) t.walk.interleaved.order t.walk.walked.proven
      a.declaration j intent claim := by
  have hplaced := interleave_placed t.walk.interleavedFrom
  have hmem : (intent, local_) ∈ t.walk.interleaved.order := mem_of_getElem? hj
  obtain ⟨found, resolution, hfound, hresolution, hview⟩ := envelopeOf_view.mp p.lowered.viewFrom
  cases hpresents with
  | account acts =>
    obtain rfl := mem_singleton.mp hclaim
    have hacts : (Admission.walk tree.root).ActsAs intent _ := ⟨found, hfound, by
      rw [← hview] at acts
      exact acts⟩
    exact .account rfl hacts (t.signedIn hacts)
  | node before placed proves =>
    obtain ⟨hbefore, hproven⟩ := p.provenBefore proves
    obtain ⟨next, hnext, hlt⟩ := hplaced.emitted _ hmem
    exact .proof hbefore (t.order_of_flat ⟨next, hnext, before.trans hlt⟩ (flat_ok.mp placed))
      hproven hclaim
  | filledByAccount declared filled =>
    obtain rfl := mem_singleton.mp hclaim
    rw [← hview] at declared filled
    obtain ⟨ancestor, hchain⟩ :=
      fill_chain (resolveTree_fills t.resolvedFrom hresolution filled) hfound declared
    obtain ⟨hacts, his⟩ := hchain.acts
    exact .grantedAccount his hchain hchain.climbs hacts (t.signedIn hacts)
  | @filledByNode socket source producer flat wanted made declared filled placed proves holds =>
    obtain rfl := mem_singleton.mp hclaim
    -- the socket is among what the node waits on, so its prover has a place in the order
    have hwaits : (source, producer) ∈ waitsOn p.lowered.view p.lowered.call := by
      refine mem_append_left _ (mem_filterMap.mpr ⟨socket, ?_, by rw [filled]; rfl⟩)
      exact mem_append_right _ (mem_filterMap.mpr ⟨_, hreference, rfl⟩)
    have hemitted := hplaced.waited _ hmem _ _ p.lowered.viewFrom p.lowered.callFrom _ hwaits
    have horder := t.order_of_flat hemitted (flat_ok.mp placed)
    obtain ⟨hbefore, hproven⟩ := p.provenBefore proves
    rw [← hview] at declared filled
    obtain ⟨ancestor, hchain⟩ :=
      fill_chain (resolveTree_fills t.resolvedFrom hresolution filled) hfound declared
    obtain rfl := hchain.prover
    exact .grantedProof hchain hchain.climbs hbefore horder hproven holds

end AdmittedTree

/-- Every claim in the evidence of an accepted tree's nodes is vouched for: by an account the
node's intent acts as, by an earlier node of the intent, or through a socket by an ancestor's
account or an ancestor's node; and every account so presented signed in under the keys of
the intent acting as it. -/
theorem presented_claims_justified (h : admitTree H N tree identity chain ruleOf = .ok a) :
    ∃ t : AdmittedTree H N tree identity chain ruleOf a, ∀ j node, a.nodes[j]? = some node →
      ∃ intent local_, t.walk.interleaved.order[j]? = some (intent, local_) ∧
        ∀ claim ∈ node.evidence, Justified H (walk tree.root) t.walk.interleaved.order
          t.walk.walked.proven a.declaration j intent claim := by
  obtain ⟨t⟩ := admitTree_ok h
  refine ⟨t, fun j node hnode => ?_⟩
  rw [t.nodes, t.walk.nodes] at hnode
  have hj : j < t.walk.interleaved.order.length := by
    rw [← (lowerAll_even t.walk.walkedFrom).2]
    exact (List.getElem?_eq_some_iff.mp hnode).1
  obtain ⟨⟨intent, local_⟩, hat⟩ : ∃ at_, t.walk.interleaved.order[j]? = some at_ :=
    ⟨_, getElem?_eq_getElem hj⟩
  obtain ⟨p⟩ : Nonempty (WalkedAt t.setting t.walk.walked j (intent, local_)) :=
    lowerAll_at t.walk.walkedFrom hat
  obtain rfl := Option.some.inj (hnode.symm.trans p.node)
  refine ⟨intent, local_, hat, fun claim hclaim => ?_⟩
  obtain ⟨spent, spent', hevidence⟩ := p.lowered.evidenceFrom
  obtain ⟨reference, hreference, claims, hpresents, hmem⟩ :=
    (resolveEvidence_ok hevidence).1 claim hclaim
  exact t.justified_of_presents p hat hreference hpresents hmem

end

def rewriteForAccount (account : Address) : MethodSignature :=
  { MethodSignature.empty with
    effects := [.effect none (.point (selfChild PACKAGE_SLOT_BASE .nil)) (.write .both) none none,
      .requires none (.require (.claim (.literal (.address account))))]
    abi := [.handle 0 0] }

def lender : Address := ⟨1, .principal⟩

def borrower : Address := ⟨2, .principal⟩

def lenderShop : CallTarget := .numbered 3

def lentAccount : IntentTree where
  root := .mk ⟨0, 0, 9, 0⟩ [lender] [lender] [] [] []
    [(.mk ⟨0, 0, 9, 1⟩ [borrower] [borrower] [] [.authority (.ofSubject lender)] []
      [(.mk ⟨0, 0, 9, 2⟩ [borrower] [borrower] [⟨lenderShop, "set", [], [.socket 0]⟩]
        [.authority (.ofSubject lender)] [] [], [.authority (.socket 0)])],
      [.authority (.account lender)])]
  instances := []
  resources := []

def lentRecords : ChainRecords := .running [("set", rewriteForAccount lender)]

def lentHasher : IntentHasher :=
  ⟨fun intent => intent.header.discriminator, fun account intent _ => ⟨account, 1000 + intent⟩⟩

abbrev admitCoded (tree : IntentTree) (chain : ChainRecords) : Except AdmissionError Admitted :=
  admitTree codedHasher lentHasher tree 0 chain fun _ => none

theorem lent_account_justified : ∃ a, admitCoded lentAccount lentRecords = .ok a ∧
    ∃ node ∈ a.nodes, .ofSubject lender ∈ node.evidence ∧ ∃ order proven intent,
      Justified codedHasher (walk lentAccount.root) order proven a.declaration 0 intent
        (.ofSubject lender) := by
  have hrun : passes (admitCoded lentAccount lentRecords) (fun a => (a.nodes[0]?.map fun node =>
        decide (Claim.ofSubject lender ∈ node.evidence)).getD false) = true := by decide +kernel
  obtain ⟨a, ha, hnode⟩ := passes_iff.mp hrun
  obtain ⟨t, ht⟩ := presented_claims_justified ha
  cases hzero : a.nodes[0]? with
  | none => simp [hzero] at hnode
  | some node =>
    simp only [hzero, Option.map_some, getD_some, decide_eq_true_eq] at hnode
    obtain ⟨intent, local_, -, hjustified⟩ := ht 0 node hzero
    exact ⟨a, ha, node, mem_of_getElem? hzero, hnode, _, _, intent, hjustified _ hnode⟩

end HyperscaleVm.Effects.Admission
