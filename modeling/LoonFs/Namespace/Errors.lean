import LoonFs.Manifest.Payload

/-! # Errors of the core -/

namespace LoonFs

structure WriterFence where
  fencedEpoch : WriterEpoch
  activeEpoch : WriterEpoch
  activeWriter : Option WriterBlock
deriving DecidableEq

inductive CoreError where
  | namespaceDeleted (namespaceId : NamespaceId)
  | namespaceCorrupt (message : String)
  | writerFenced (fence : WriterFence)
  /-- A failed assertion, which ends the process. -/
  | panicked (message : String)
  /-- A loop that the source leaves unbounded was cut off. -/
  | unfinished
deriving DecidableEq

end LoonFs
