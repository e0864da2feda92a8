/-!
Mining pools with a page of statistics for each payout address.
-/

namespace MinerWatch

/-- A pool with a public page for each address. -/
inductive Pool where
  | publicPool
  | ocean
  | dCentral
  | ckPool
  deriving Repr, DecidableEq

namespace Pool

def all : List Pool := [publicPool, ocean, dCentral, ckPool]

def host : Pool → String
  | publicPool => "public-pool.io"
  | ocean => "ocean.xyz"
  | dCentral => "solo.d-central.tech"
  | ckPool => "solo.ckpool.org"

def statsPage (p : Pool) (address : String) : String :=
  match p with
  | publicPool => "https://web.public-pool.io/#/app/" ++ address
  | ocean => "https://ocean.xyz/stats/" ++ address
  | dCentral => "https://solo.d-central.tech/#/app/" ++ address
  | ckPool => "https://solostats.ckpool.org/stats/" ++ address

def occurs (word : List Char) : List Char → Bool
  | [] => word.isEmpty
  | c :: cs => word.isPrefixOf (c :: cs) || occurs word cs

/-- The first pool whose host occurs in a URL. -/
def ofUrl? (url : String) : Option Pool :=
  all.find? fun p => occurs p.host.toList url.toList

end Pool
end MinerWatch
