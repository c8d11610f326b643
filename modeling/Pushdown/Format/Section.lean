import Pushdown.Definition

/-!
# Sections

A definition in text form is a series of sections, each opened by a keyword. Five kinds have to be
there, and no kind may be there twice; their order is free.
-/

namespace Pushdown.Format

inductive Section.Kind where
  | name
  | states
  | input
  | stack
  | initial
  | finals
  | accept
  | bottom
  | rules
  deriving DecidableEq, Repr

inductive Section where
  | name (text : String)
  | states (names : List State)
  | input (symbols : List Symbol)
  | stack (symbols : List Symbol)
  | initial (state : State)
  | finals (names : List State)
  | accept (mode : Acceptance)
  | bottom (symbol : Symbol)
  | rules (list : List Rule)
  deriving DecidableEq, Repr

namespace Section

def Kind.keyword : Kind → String
  | .name => "name"
  | .states => "states"
  | .input => "input"
  | .stack => "stack"
  | .initial => "initial"
  | .finals => "final"
  | .accept => "accept"
  | .bottom => "bottom"
  | .rules => "rules"

def kind : Section → Kind
  | .name _ => .name
  | .states _ => .states
  | .input _ => .input
  | .stack _ => .stack
  | .initial _ => .initial
  | .finals _ => .finals
  | .accept _ => .accept
  | .bottom _ => .bottom
  | .rules _ => .rules

/-! ### What a section of a given kind holds -/

def name? : Section → Option String
  | .name text => some text
  | _ => none

def states? : Section → Option (List State)
  | .states names => some names
  | _ => none

def input? : Section → Option (List Symbol)
  | .input symbols => some symbols
  | _ => none

def stack? : Section → Option (List Symbol)
  | .stack symbols => some symbols
  | _ => none

def initial? : Section → Option State
  | .initial state => some state
  | _ => none

def finals? : Section → Option (List State)
  | .finals names => some names
  | _ => none

def accept? : Section → Option Acceptance
  | .accept mode => some mode
  | _ => none

def bottom? : Section → Option Symbol
  | .bottom symbol => some symbol
  | _ => none

def rules? : Section → Option (List Rule)
  | .rules list => some list
  | _ => none

end Section

end Pushdown.Format
