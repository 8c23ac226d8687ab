import Mathlib

/-!
# Chain configuration (`params/config.go`)

The fork heights of the chain.  A fork is in force from its height on.
-/

namespace Zvchain

/-- `params.ChainConfig`, without the chain id, which no fork test reads. -/
structure ChainConfig where
  ZIP001 : UInt64
  ZIP002 : UInt64
  ZIP003 : UInt64
  ZIP004 : UInt64
  ZIP005 : UInt64
  ZIP006 : UInt64
  deriving DecidableEq, Repr

/-- `params.config`, the value `GetChainConfig()` returns. -/
def config : ChainConfig where
  ZIP001 := 931588
  ZIP002 := 960388
  ZIP003 := 4945537
  ZIP004 := 7583800
  ZIP005 := 10000000
  ZIP006 := 9464382

def isFork (s head : UInt64) : Bool := s ≤ head

namespace ChainConfig

variable (cfg : ChainConfig)

def IsZIP001 (h : UInt64) : Bool := isFork cfg.ZIP001 h

def IsZIP002 (h : UInt64) : Bool := isFork cfg.ZIP002 h

def IsZIP003 (h : UInt64) : Bool := isFork cfg.ZIP003 h

def IsZIP004 (h : UInt64) : Bool := isFork cfg.ZIP004 h

def IsZIP006 (h : UInt64) : Bool := isFork cfg.ZIP006 h

/-- `IsZIP005Checkpoint`: the block that crosses the fork height. -/
def IsZIP005Checkpoint (preHeight height : UInt64) : Bool :=
  preHeight < cfg.ZIP005 && height ≥ cfg.ZIP005

end ChainConfig

end Zvchain
