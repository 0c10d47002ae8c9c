/-
PegaFlow/PrefillScheduler.lean

`PdPrefillSchedulerConnector`: the scheduler half of the prefill side of the P/D
connector (`pd_connector/scheduler.py`).
-/
import PegaFlow.PushPlan

namespace PegaFlow

open Function

abbrev ReqId := String

/-- `kv_transfer_params` of a request that pushes its KV to a decode engine. -/
structure ProducerKvParams (H : Type*) where
  targetRequestId : String
  handshakes : List H
  consumerAbortReturnsAck : Bool

structure PushReqMeta (H : Type*) where
  localBlockIds : BlockIds
  targetRequestId : String
  handshakes : List H

/-- Why the worker has to forget a request. -/
inductive ReleaseReason where
  | consumerAbort
  | producerAbort
  | producerPreempted
  | producerFinished
deriving DecidableEq, Repr

structure PrefillScheduler (H : Type*) where
  reqsToPush : ReqId → Option (PushReqMeta H)
  activePushes : ReqId → Option (PushReqMeta H)
  /-- Requests to release in the next step, with the reason. -/
  reqsToRelease : ReqId → Option ReleaseReason

/-- What one step carries to the workers. -/
structure PdConnectorMetadata (H : Type*) where
  reqsToPush : ReqId → Option (PushReqMeta H)
  reqsToRelease : ReqId → Option ReleaseReason
  preemptedReqIds : ReqId → Bool

def hasBlocks (blockIds : BlockIds) : Bool :=
  blockIds.any fun group => 0 < group.length

variable {H : Type*}

namespace PrefillScheduler

def new : PrefillScheduler H where
  reqsToPush _ := none
  activePushes _ := none
  reqsToRelease _ := none

variable (s : PrefillScheduler H)

/-- A producer request got blocks: it is pushed in this step and stays active. -/
def updateStateAfterAlloc (reqId : ReqId)
    (producer : Option (ProducerKvParams H)) (blocks : BlockIds) : PrefillScheduler H :=
  match producer with
  | none => s
  | some producer =>
      let pushReq : PushReqMeta H :=
        { localBlockIds := blocks
          targetRequestId :=
            if producer.targetRequestId = "" then reqId else producer.targetRequestId
          handshakes := producer.handshakes }
      { s with
        reqsToPush := update s.reqsToPush reqId (some pushReq)
        activePushes := update s.activePushes reqId (some pushReq) }

/-- New blocks of a request scheduled again: a further chunk, if the request is active
and has no push in this step yet. -/
def addCachedProducerChunk (reqId : ReqId) (blocks : BlockIds) : PrefillScheduler H :=
  if (s.reqsToPush reqId).isSome then s
  else
    match s.activePushes reqId with
    | none => s
    | some pushReq =>
        if hasBlocks blocks then
          { s with
            reqsToPush := update s.reqsToPush reqId
              (some { pushReq with localBlockIds := blocks }) }
        else s

/-- The metadata of a step.  `cached` are the requests scheduled again with their new
blocks; a preempted request loses its push of this step. -/
def buildConnectorMeta (cached : List (ReqId × BlockIds))
    (preempted : ReqId → Bool) : PdConnectorMetadata H × PrefillScheduler H :=
  let s := cached.foldl (fun s c => s.addCachedProducerChunk c.1 c.2) s
  let preemptedReqIds := fun r => preempted r && (s.activePushes r).isSome
  ({ reqsToPush := fun r => if preemptedReqIds r then none else s.reqsToPush r
     reqsToRelease := fun r =>
      (s.reqsToRelease r).map fun reason => if preemptedReqIds r then .producerPreempted else reason
     preemptedReqIds },
   { reqsToPush := fun _ => none
     activePushes := fun r => if preemptedReqIds r then none else s.activePushes r
     reqsToRelease := fun _ => none })

/-- The workers have sent everything and vLLM has finished the request. -/
def updateConnectorOutput (finishedSending : ReqId) : PrefillScheduler H :=
  { s with
    activePushes := update s.activePushes finishedSending none
    reqsToRelease := update s.reqsToRelease finishedSending (some .producerFinished) }

/-- vLLM is done with a request.  Returns whether its blocks must be kept for now. -/
def requestFinished (reqId : ReqId)
    (producer : Option (ProducerKvParams H)) (aborted : Bool) (blocks : BlockIds) :
    Bool × PrefillScheduler H :=
  match producer with
  | none => (false, s)
  | some producer =>
      if aborted then
        let reason : ReleaseReason :=
          if producer.consumerAbortReturnsAck then .consumerAbort else .producerAbort
        (false,
          { s with
            activePushes := update s.activePushes reqId none
            reqsToRelease := update s.reqsToRelease reqId (some reason) })
      else if hasBlocks blocks then
        let kept := (s.activePushes reqId).getD
          { localBlockIds := blocks, targetRequestId := reqId, handshakes := [] }
        (true, { s with activePushes := update s.activePushes reqId (some kept) })
      else
        (false,
          { s with
            activePushes := update s.activePushes reqId none
            reqsToRelease :=
              update s.reqsToRelease reqId (some .producerFinished) })

end PrefillScheduler

end PegaFlow
