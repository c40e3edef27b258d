import CallTrace.Trace.Reader

/-!
# Listings

A listing of a trace has its figures first and then its lines, with a mark at the sinks.
-/

namespace CallTrace.Report

def listingWidth : Nat := 70

def ruler (c : Char) : String := "".pushn c listingWidth

def sinkMark : String := "  [SINK]"

def listed (l : Trace.Line) : String := if l.isSink then l.text ++ sinkMark else l.text

def sinkCount (ls : List Trace.Line) : Nat := ls.countP (·.isSink)

def maxDepth (ls : List Trace.Line) : Nat := ls.foldl (fun d l => max d l.depth) 0

def listingHead (ls : List Trace.Line) : List String :=
  [ruler '=', "Call Tree Report", ruler '=', "  Nodes: " ++ toString ls.length,
    "  Sinks: " ++ toString (sinkCount ls), "  Max depth: " ++ toString (maxDepth ls), ruler '-']

def listing (ls : List Trace.Line) : String := Text.unlines (listingHead ls ++ ls.map listed)

def listTrace (trace : String) (hidden : List String) : Except Trace.Error String :=
  (Trace.read trace hidden).map listing

end CallTrace.Report
