import LoonFs.Namespace.Errors

/-! # Publishing a manifest -/

namespace LoonFs

/-- What an attempt wants of the manifest that it builds on. -/
inductive ManifestChange (Response : Type) where
  | next (payload : NamespaceManifestPayload) (response : Response)
  | finished (response : Response)
  | again

def noManifestAfter (current : ManifestNo) : CoreError :=
  .namespaceCorrupt (s!"the current manifest is number {current}, the largest manifest number, " ++
    "so no manifest can follow it")

end LoonFs
