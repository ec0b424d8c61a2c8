import HyperscaleVm.Kernel.Session.Materialize

/-!
# Runs of a session

Every way a session moves between its materialization and its finish: the
operations a guest reaches through its host (`kernel/src/host.rs`), and what the
walk does between two of them.
-/

namespace HyperscaleVm.Kernel
open Effects.Admission (IssuanceGrant)

inductive SessionOp where
  | siteLen (rep : ℕ)
  | siteDeclared (rep index : ℕ)
  | cellGet (site element : ℕ)
  | writeCellSet (site element : ℕ) (value : Bytes)
  | writeCellClear (site element : ℕ)
  | sealCell (site element : ℕ)
  | openSeal (site element : ℕ)
  | amountCellBalance (site element : ℕ)
  | cellTake (site element amount : ℕ)
  | cellPut (site element funds : ℕ)
  | reserveAmount (site element : ℕ)
  | reserveTake (site element : ℕ)
  | bucketAmount (rep : ℕ)
  | bucketTake (rep amount : ℕ)
  | bucketSplit (rep num den : ℕ)
  | bucketPut (rep other : ℕ)
  | dropBucket (rep : ℕ)
  | mint (grant amount : ℕ)
  | mintInstances (grant : ℕ) (ids : List ℕ)
  | burn (funds : ℕ)
  | rangeCount (site element : ℕ)
  | rangeCovered (site element : ℕ)
  | rangeOrder (site element index : ℕ)
  | rangeEntry (site element index : ℕ)
  | rangeSet (site element index : ℕ) (value : Bytes)
  | rangeInsert (site element order : ℕ) (value : Bytes)
  | rangeRemove (site element index : ℕ)
  | rangeTake (site element : ℕ) (ids : List ℕ)
  | rangePut (site element funds : ℕ) (value : Bytes)
  | emit (eventType : ℕ) (payload : Bytes)
  -- the walk's own
  | escrowOut (node output funds : ℕ) (departure : Departure)
  | escrowIn (arrival : Arrival)
  | declaredCell (key : SubstateKey)
  | declaredPresent (target : EffectTarget)
  | enterInvocation (emitter : Address) (eventBytes : ℕ)
  | leaveInvocation
  | bindSite (entries : List (Option ℕ))
  | lendBucket (rep : ℕ)
  | grantIssuance (grants : List IssuanceGrant)

inductive OpAnswer where
  | done
  | number (value : ℕ)
  | flag (value : Bool)
  | bytes (value : Bytes)
  | drawn (word : Drawn)
  | crossed (crossed : Crossed)
  deriving DecidableEq

namespace Session

def answer {α : Type} (form : α → OpAnswer) (result : Session × α) : Session × OpAnswer :=
  (result.1, form result.2)

def done (result : Session) : Session × OpAnswer := (result, .done)

def step (s : Session) : SessionOp → Except SessionTrap (Session × OpAnswer)
  | .siteLen rep => (s.siteLen rep).map fun n => (s, .number n)
  | .siteDeclared rep index => (s.siteDeclared rep index).map fun b => (s, .flag b)
  | .cellGet site element => (s.cellGet site element).map (answer .bytes)
  | .writeCellSet site element value => (s.writeCellSet site element value).map done
  | .writeCellClear site element => (s.writeCellClear site element).map done
  | .sealCell site element => (s.sealCell site element).map done
  | .openSeal site element => (s.openSeal site element).map (answer .drawn)
  | .amountCellBalance site element => (s.amountCellBalance site element).map (answer .number)
  | .cellTake site element amount => (s.cellTake site element amount).map (answer .number)
  | .cellPut site element funds => (s.cellPut site element funds).map done
  | .reserveAmount site element => (s.reserveAmount site element).map fun n => (s, .number n)
  | .reserveTake site element => (s.reserveTake site element).map (answer .number)
  | .bucketAmount rep => (s.buckets.amount rep).map fun n => (s, .number n)
  | .bucketTake rep amount => (s.bucketTake rep amount).map (answer .number)
  | .bucketSplit rep num den => (s.bucketSplit rep num den).map (answer .number)
  | .bucketPut rep other => (s.bucketPut rep other).map done
  | .dropBucket rep => (s.dropBucket rep).map done
  | .mint grant amount => (s.mint grant amount).map (answer .number)
  | .mintInstances grant ids => (s.mintInstances grant ids).map (answer .number)
  | .burn funds => (s.burn funds).map done
  | .rangeCount site element => (s.rangeCount site element).map (answer .number)
  | .rangeCovered site element => (s.rangeCovered site element).map (answer .flag)
  | .rangeOrder site element index => (s.rangeOrder site element index).map (answer .number)
  | .rangeEntry site element index => (s.rangeEntry site element index).map (answer .bytes)
  | .rangeSet site element index value => (s.rangeSet site element index value).map done
  | .rangeInsert site element order value => (s.rangeInsert site element order value).map done
  | .rangeRemove site element index => (s.rangeRemove site element index).map done
  | .rangeTake site element ids => (s.rangeTake site element ids).map (answer .number)
  | .rangePut site element funds value => (s.rangePut site element funds value).map done
  | .emit eventType payload => (s.emit eventType payload).map done
  | .escrowOut node output funds departure =>
    (s.escrowOut node output funds departure).map (answer .crossed)
  | .escrowIn arrival => (s.escrowIn arrival).map (answer .number)
  | .declaredCell key => .ok (answer .bytes (s.declaredCell key))
  | .declaredPresent target => (s.declaredPresent target).map (answer .flag)
  | .enterInvocation emitter eventBytes => .ok (done (s.enterInvocation emitter eventBytes))
  | .leaveInvocation => .ok (done s.leaveInvocation)
  | .bindSite entries => .ok (answer .number (s.bindSite entries))
  | .lendBucket rep => .ok (done (s.lendBucket rep))
  | .grantIssuance grants => .ok (done (s.grantIssuance grants))

def run (s : Session) (ops : List SessionOp) : Except SessionTrap Session :=
  ops.foldlM (fun s op => (s.step op).map Prod.fst) s

end Session

end HyperscaleVm.Kernel
