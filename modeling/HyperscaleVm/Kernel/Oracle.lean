import HyperscaleVm.Types.Effect

/-!
# The trace-subset oracle (`kernel/src/oracle.rs`, `store.rs`, `overlay.rs`)

Every recorded access must be covered by the declared effect set.
-/

namespace HyperscaleVm.Kernel
open List

structure Access where
  target : EffectTarget
  kind : ModeKind

def permits : ModeKind → ModeKind → Bool
  | .write, .read | .write, .write | .read, .read | .delta, .delta | .reserve, .reserve => true
  | _, _ => false

def targetCovers (declared accessed : EffectTarget) : Bool :=
  match declared, accessed with
  | .point key, .point key' => key = key'
  | .entry owner collection order, .entry owner' collection' order' =>
    owner = owner' && collection = collection' && order = order'
  | .range owner collection lo hi _, .entry owner' collection' order =>
    owner = owner' && collection = collection' && lo ≤ order && order ≤ hi
  -- a declared entry is read as the width-one interval at its order
  | .entry owner collection order, .range owner' collection' lo hi cap =>
    owner = owner' && collection = collection' && lo = order && hi = order && cap ≤ 1
  | .range owner collection lo hi cap, .range owner' collection' lo' hi' cap' =>
    owner = owner' && collection = collection' && lo ≤ lo' && hi' ≤ hi && cap' ≤ cap
  | _, _ => false

/-- An exclusive claim on a cell covers the movement its change is kept as. -/
def exclusiveMovement (declared : Effect) (access : Access) : Bool :=
  match declared.target with
  | .point _ => declared.mode.kind = .write && access.kind = .delta
  | _ => false

def covered (access : Access) (declared : EffectSet) : Bool :=
  declared.iter.any fun effect =>
    targetCovers effect.target access.target
      && (permits effect.mode.kind access.kind || exclusiveMovement effect access)

def undeclaredAccesses (trace : List Access) (declared : EffectSet) : List Access :=
  trace.filter fun access => !covered access declared

def occupiedAccesses : EffectTarget → List Access
  | .point key => [⟨.point key, .read⟩]
  | .entry owner collection order => [⟨.range owner collection order order 1, .read⟩]
  | .range owner collection lo hi cap =>
    if cap = 0 then [] else [⟨.range owner collection lo hi 1, .read⟩]

theorem covered_occupied {declared : EffectSet} {target : EffectTarget}
    (h : declared.declares target .read ∨ declared.declares target .write)
    {access : Access} (ha : access ∈ occupiedAccesses target) : covered access declared = true := by
  obtain ⟨mode, hmem, hkind⟩ : ∃ mode : Mode, (⟨target, mode⟩ : Effect) ∈ declared.iter ∧
      permits mode.kind .read = true := by
    rcases h with ⟨d, hd, mode, hm, hk⟩ | ⟨d, hd, mode, hm, hk⟩ <;>
      exact ⟨mode, EffectSet.mem_iter.mpr (by simpa [EffectSet.contains, hd] using hm), by
        rw [hk]; rfl⟩
  refine any_eq_true.mpr ⟨_, hmem, ?_⟩
  cases target with
  | point | entry =>
    obtain rfl := mem_singleton.mp ha
    simp [targetCovers, hkind]
  | range owner collection lo hi cap =>
    simp only [occupiedAccesses] at ha
    split at ha
    · cases ha
    · obtain rfl := mem_singleton.mp ha
      have hcap : 1 ≤ cap := by omega
      simp [targetCovers, hkind, hcap]

end HyperscaleVm.Kernel
