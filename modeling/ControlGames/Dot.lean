import ControlGames.Region
import ControlGames.Store

/-! # Drawing a store

A store is drawn as a directed graph in the DOT language: a node for each state and an edge for each
transition, in the order of storage. With a winning region, nodes show who wins and the edges of
witness inputs stand out. Texts of the style are inserted as they are. -/
namespace ControlGames

namespace Dot

structure Style where
  nodeShape : String
  winningColor : String
  losingColor : String
  witnessEdgeStyle : String
  edgeStyle : String
  rankdir : String

def defaultStyle : Style := ⟨"circle", "palegreen", "lightpink", "bold", "solid", "LR"⟩

def header (style : Style) : List String :=
  ["digraph \x7b", s!"rankdir={style.rankdir};", s!"node [shape={style.nodeShape}];"]

def footer : List String := ["\x7d"]

def nodeLine (style : Style) (region : Option Region) (x : State) : Except Fault String :=
  match region with
  | none => return s!"{x.id} [label=\"{x}\"];"
  | some r => do
    let color := if ← r.isWinning x then style.winningColor else style.losingColor
    return s!"{x.id} [label=\"{x}\", style=filled, fillcolor={color}];"

def isWitness (region : Option Region) (pre : State) (u : Input) : Except Fault Bool :=
  match region with
  | none => .ok false
  | some r => (r.witness pre).map (· == some u)

def edgeLine (style : Style) (region : Option Region) (post : State) (u : Input) (pre : State) :
    Except Fault String := do
  let edgeStyle := if ← isWitness region pre u then style.witnessEdgeStyle else style.edgeStyle
  return s!"{pre.id} -> {post.id} [label=\"{u}\", style={edgeStyle}];"

end Dot

namespace Store

open Dot

def nodeLines (s : Store) (style : Style) (region : Option Region) : Except Fault (List String) :=
  s.states.mapM (nodeLine style region)

/-- The edges into one state under one input. -/
def groupLines (s : Store) (style : Style) (region : Option Region) (i : Fin s.numStates)
    (j : Fin s.numInputs) : Except Fault (List String) := do
  (← s.groupAt i j).mapM (edgeLine style region (s.state i) (s.input j))

def edgeLines (s : Store) (style : Style) (region : Option Region) :
    Except Fault (List String) := do
  let rows ← (List.finRange s.numStates).mapM fun i =>
    (List.finRange s.numInputs).mapM (s.groupLines style region i)
  return rows.flatten.flatten

def dotLines (s : Store) (style : Style) (region : Option Region) : Except Fault (List String) := do
  let nodes ← s.nodeLines style region
  let edges ← s.edgeLines style region
  return header style ++ nodes ++ edges ++ footer

/-- The text of the drawing; every line ends with a line feed. -/
def dot (s : Store) (style : Style) (region : Option Region) : Except Fault String :=
  (s.dotLines style region).map fun lines => String.join (lines.map (· ++ "\n"))

end Store

end ControlGames
