import Misc.Lib.Spaces
import Mathlib

namespace Misc.Xml
open Misc.Lib
set_option autoImplicit true

/-- `xml.Token`, with the local part of a name. -/
inductive Token
  | startElement (name : List UInt8) (attr : List (List UInt8 × List UInt8))
  | endElement (name : List UInt8)
  | charData (data : List UInt8)
  | comment (data : List UInt8)
  | directive (data : List UInt8)
  | procInst (target inst : List UInt8)

inductive Xmltype
  | element | chardata | comment | directive | procinst
  deriving DecidableEq

/-- The dynamic types of `value`; a map is the function that reads it. -/
inductive Value
  | nil
  | attrs (m : List UInt8 → Option (List UInt8))
  | string (s : List UInt8)

/-- A node without the pointer to its parent. -/
inductive Xnode
  | mk (xtype : Xmltype) (name : List UInt8) (value : Value) (children : List Xnode)

namespace Xnode

def xtype : Xnode → Xmltype
  | mk xtype _ _ _ => xtype

def name : Xnode → List UInt8
  | mk _ name _ _ => name

def value : Xnode → Value
  | mk _ _ value _ => value

def children : Xnode → List Xnode
  | mk _ _ _ children => children

def push : Xnode → Xnode → Xnode
  | mk xtype name value children, n => mk xtype name value (children ++ [n])

def find (node : Xnode) (xtype : Xmltype) (name : List UInt8) : List Xnode :=
  node.children.filter fun child => child.xtype = xtype ∧ child.name = name

def elements (node : Xnode) (name : List UInt8) : List Xnode := node.find .element name

def attr (node : Xnode) (name : List UInt8) : List UInt8 :=
  match node.value with
  | .attrs m => (m name).getD []
  | _ => []

mutual

/-- `none` is the panic of a text node whose value is no string. -/
def text : Xnode → Option (List UInt8)
  | mk .chardata _ (.string s) _ => some s
  | mk .chardata _ _ _ => none
  | mk .element _ _ children => texts children
  | mk _ _ _ _ => some []

def texts : List Xnode → Option (List UInt8)
  | [] => some []
  | c :: cs => c.text.bind fun s => (texts cs).map (s ++ ·)

end

end Xnode

/-- `make` and the loop over the attributes: of two with one name the last one counts. -/
def attrMap (attr : List (List UInt8 × List UInt8)) : List UInt8 → Option (List UInt8) :=
  attr.foldl (fun m a => Function.update m a.1 (some a.2)) fun _ => none

def startValue (attr : List (List UInt8 × List UInt8)) : Value :=
  if attr = [] then .nil else .attrs (attrMap attr)

/-- `cur` with its children so far and the nodes around it, from the inside out; an open element
is not yet among the children of the next one. `gone` is the state in which `cur` is nil. -/
inductive Loader
  | at (cur : Xnode) (parents : List Xnode)
  | gone (root : Xnode)

inductive Failure
  | badElement (name : List UInt8)
  | panic
  deriving DecidableEq

namespace Loader

/-- `add` without a step into the new node. -/
def add (xtype : Xmltype) (name value : List UInt8) : Loader → Except Failure Loader
  | .at cur parents => .ok (.at (cur.push (.mk xtype name (.string value) [])) parents)
  | .gone _ => .error .panic

/-- A turn of the loop. -/
def step (nowhite : Bool) (s : Loader) : Token → Except Failure Loader
  | .startElement name attr =>
    match s with
    | .at cur parents => .ok (.at (.mk .element name (startValue attr) []) (cur :: parents))
    | .gone _ => .error .panic
  | .endElement name =>
    match s with
    | .at cur parents =>
      if cur.name ≠ name then .error (.badElement cur.name)
      else
        match parents with
        | [] => .ok (.gone cur)
        | parent :: parents => .ok (.at (parent.push cur) parents)
    | .gone _ => .error .panic
  | .charData data => if nowhite ∧ isWhite data then .ok s else s.add .chardata [] data
  | .comment data => s.add .comment [] data
  | .directive data => s.add .directive [] data
  | .procInst target inst => s.add .procinst target inst

def root : Loader → Xnode
  | .at cur parents => parents.foldl (fun child parent => parent.push child) cur
  | .gone root => root

end Loader

def newRoot : Xnode := .mk .element [] .nil []

/-- `loadxml` on the tokens up to the end of the file. -/
def loadxml (nowhite : Bool) (tokens : List Token) : Except Failure Xnode :=
  (tokens.foldlM (Loader.step nowhite) (.at newRoot [])).map Loader.root

end Misc.Xml
