import EvmAudit.Document.Reader
import EvmAudit.Text.Csv
import EvmAudit.Text.Quoted
import EvmAudit.Text.Regex
import EvmAudit.Workspace

/-! Tables about lists of contracts, with what a public site tells about each. The pages of the site
are bytes, which no pattern of text is searched in, so nothing is ever known about a contract. -/

namespace EvmAudit.Survey

def bytesOf (file : String) : Shell String := do
  let w ← get
  match w.files.get? file with
  | none => throw (if w.folders.contains file then .isFolder else .noSuchFile)
  | some "" => throw .emptyFile
  | some content => return content

def searchText (pattern file : String) : Shell (List (List String)) := do
  let _ ← bytesOf file
  let _ ← Shell.ofExcept (Regex.read pattern)
  throw .unsupportedOperand

def searchBytes (pattern file : String) : Shell (List (List String)) := do
  let content ← bytesOf file
  return (← Shell.ofExcept (Regex.read pattern)).findAll content

def transactionsPage (address : String) : String := "tmp/" ++ address ++ "_txs.html"

def accountPage (address : String) : String := "tmp/" ++ address ++ ".html"

def transactionsPattern : String :=
  "<span>A total of (.+?) transactions found for address</span>"

def balancePattern : String := "<td>ETH Balance:\\n<\\/td>\\n<td>\\n(.+?)\\n<\\/td>"

def searchPages (address : String) : Shell Unit := do
  let _ ← searchText transactionsPattern (transactionsPage address)
  let _ ← searchText balancePattern (accountPage address)

/-- What is known about a contract. Pages that cannot be searched are fetched and searched again;
what is not found is unknown. -/
def contractInfo (address : String) : Shell (String × String) := do
  Shell.print ("Getting info for contracts... " ++ address)
  tryCatch (searchPages address) fun _ => do
    tryCatch
      (do
        Shell.tell ("wget -O " ++ transactionsPage address ++ " http://etherscan.io/txs?a=" ++
        address)
        let _ ← searchText transactionsPattern (transactionsPage address)
        Shell.tell ("wget -O " ++ accountPage address ++ " https://etherscan.io/address/" ++
        address)
        let _ ← searchText balancePattern (accountPage address))
      fun _ => return ()
  return ("unknown", "unknown")

def addRow (file : String) (fields : List String) : Shell Unit := do
  let before := ((← get).files.get? file).getD ""
  Shell.writeFile file (before ++ Csv.row fields)

def itemOf (xs : List String) (i : Nat) : Shell String :=
  match xs[i]? with
  | some s => return s
  | none => throw .missingItem

def concurrencyTable (list : String) : Shell Unit := do
  let file := "concurr.csv"
  Shell.writeFile file ""
  addRow file ["Contract address", "No. of paths", "No. of concurrency pairs", "Balance",
    "No. of TXs", "Note"]
  let lines := Text.lines (← Shell.readFile list)
  lines.forM fun line => do
    let words := Text.words line
    let address ← itemOf words 0
    let (balance, transactions) ← contractInfo address
    addRow file [address, ← itemOf words 1, ← itemOf words 2, balance, transactions,
      Text.quotedList (words.drop 3)]

def timeTable (list : String) : Shell Unit := do
  let file := "time.csv"
  Shell.writeFile file ""
  addRow file ["Contract address", "Balance", "No. of TXs", "Note"]
  let lines := Text.lines (← Shell.readFile list)
  lines.forM fun line => do
    if Text.trim line ≠ "" then
      let name := ((Text.splitAt '.' line).head?).getD ""
      let address ← itemOf (Text.splitAt '_' name) 1
      let (transactions, balance) ← contractInfo address
      addRow file [address, balance, transactions]

def distinctContracts (table : String) : Shell Unit := do
  let w ← get
  match w.files.get? table with
  | none => throw (if w.folders.contains table then .isFolder else .noSuchFile)
  | some content =>
    if ((Text.linesFrom [] content.toList).drop 1).isEmpty then Shell.print "[]"
    else throw .unsupportedOperand

def splitDocument (file : String) : Shell Unit := do
  let content ← Shell.readFile file
  let _ ← Shell.ofExcept (Document.read content)
  throw .missingPart

def splitDocuments : Shell Unit :=
  (List.range 11).forM fun i => do
    let file := "contract" ++ toString i ++ ".json"
    splitDocument file
    Shell.removeFile file

end EvmAudit.Survey
