import EvmAudit.Machine.Basic

/-! Questions to a public record of the chain. Every question is noted, and a failed one is
reported before the computation stops. -/

namespace EvmAudit.Exec

def apiDomain : String := "https://api.etherscan.io/api"

def apiKey : String := "VT4IW6VK7VES1Q9NYFI74YKH8U7QW9XRHN"

def remoteOf (ctx : Context) : Exec Remote :=
  match ctx.remote with
  | some r => return r
  | none => throw .unboundName

def ask (remote : Remote) (url : String) : Exec Document := do
  modifyShared fun s => { s with requests := s.requests ++ [url] }
  match remote.replies.find? fun (part, _) => Text.contains part url with
  | none => throw .unreachable
  | some (_, body) => ofExcept (Document.read body)

def reporting {α : Type} (text : String) (x : Exec α) : Exec α :=
  tryCatch x fun cause => do
    say .error text
    throw cause

def Value.ofDocument : Document → Value
  | .int n => .int n
  | .bool b => .bool b
  | .double x => .double x
  | .text s => .text s
  | .null => .absent
  | _ => .record

def accountText (address : String) : String := "Error at: contract address: " ++ address

def askBalance (ctx : Context) (address : Int) : Exec Value := do
  let remote ← remoteOf ctx
  reporting (accountText (toString address)) do
    let reply ← ask remote
      (apiDomain ++ "?module=account&action=balance&address=" ++ toString address ++
        "&tag=latest&apikey=" ++ apiKey)
    let status ← ofExcept (reply.get "message")
    if status.text? = some "OK" then return Value.ofDocument (← ofExcept (reply.get "result"))
    else return Value.ofDocument reply

def askCode (ctx : Context) (address : Int) : Exec Document := do
  let remote ← remoteOf ctx
  reporting (accountText (toString address)) do
    let reply ← ask remote
      (apiDomain ++ "?module=proxy&action=eth_getCode&address=" ++ toString address ++
        "&tag=latest&apikey=" ++ apiKey)
    ofExcept (reply.get "result")

def askStorage (ctx : Context) (position : Int) : Exec Int := do
  let remote ← remoteOf ctx
  let place := Numeral.hex position
  let result ← reporting (accountText remote.contract ++ ", position: " ++ place) do
    let reply ← ask remote
      (apiDomain ++ "?module=proxy&action=eth_getStorageAt&address=" ++ remote.contract ++
        "&position=" ++ place ++ "&tag=latest&apikey=" ++ apiKey)
    ofExcept (reply.get "result")
  match result with
  | .text s => ofExcept ((Numeral.read 16 s).elim (.error .badNumeral) .ok)
  | _ => throw .unsupportedOperand

end EvmAudit.Exec
