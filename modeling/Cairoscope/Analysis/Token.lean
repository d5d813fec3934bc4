import Cairoscope.Analysis.Report
import Cairoscope.Contract.Basic

/-! Token standards, recognized by the names of functions. -/

namespace Cairoscope.Analysis

/-- The small letter for each character that has a Latin one; U+212A is the sign for kelvin. -/
def latinLower (c : Char) : Char :=
  if 'A' ≤ c ∧ c ≤ 'Z' then Char.ofNat (c.toNat + 32)
  else if c.toNat = 0x212a then 'k'
  else c

def loweredNames (functions : List Function) : List String :=
  functions.map fun f => String.ofList (f.shortName.toList.map latinLower)

/-- A standard: the functions it asks for, and the functions of each extension. -/
structure TokenStandard where
  mandatory : List String
  extensions : List (String × List String)

def offersAll (names wanted : List String) : Bool := wanted.all names.contains

def TokenStandard.isMetBy (t : TokenStandard) (names : List String) : Bool :=
  offersAll names t.mandatory

def TokenStandard.extensionsIn (t : TokenStandard) (names : List String) : List String :=
  (t.extensions.filter fun e => offersAll names e.2).map (·.1)

def erc20 : TokenStandard where
  mandatory := ["total_supply", "balance_of", "transfer", "transfer_from", "approve", "allowance"]
  extensions :=
    [("Burnable token", ["burn", "burnfrom"]), ("Mintable token", ["mint"]),
     ("Pausable token", ["pause", "unpause", "paused"]), ("Upgradeable token", ["upgrade"])]

def erc721 : TokenStandard where
  mandatory :=
    ["balance_of", "owner_of", "safe_transfer_from", "transfer_from", "approve", "get_approved",
     "set_approval_for_all", "is_approved_for_all"]
  extensions :=
    [("Mintable token", ["mint"]), ("Burnable token", ["burn"]),
     ("Pausable token", ["pause", "unpause", "paused"]),
     ("Enumerable token", ["totalsupply", "tokenofownerbyindex", "tokenbyindex"])]

def tokenReport (a : Profile) (t : TokenStandard) (functions : List Function) : Report :=
  let names := loweredNames functions
  if t.isMetBy names then a.report true (t.extensionsIn names) else a.report false []

end Cairoscope.Analysis
