-- What the host of a session provides: the files that documents may include, the digest that
-- names their contents, and how deep evaluation and sources may nest.
import LazyConfig.Codec.Js64
import LazyConfig.Codec.Sha256
import LazyConfig.Engine.Error

namespace LazyConfig

structure Host where
  storage : Storage
  digest : Bytes → Bytes := Sha256.digest
  /-- How deep forcings and calls may nest. -/
  maxDepth : Nat := 64
  /-- How deep expressions may nest. -/
  maxParseDepth : Nat := 100

namespace Host

/-- The name of a document in a file, which its contents decide. -/
def contentName (host : Host) (bytes : Bytes) : String := Js64.encode (host.digest bytes)

/-- The error of one level too many. -/
def overflow (host : Host) : EvalError := .stackOverflow (host.maxDepth + 1) host.maxDepth

end Host

end LazyConfig
