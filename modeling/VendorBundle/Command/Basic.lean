import VendorBundle.Tree.Listing

/-!
# Commands

What a command line asks for: one of five commands with its options.
-/

namespace VendorBundle

/-- The options that every command takes. -/
structure ConfigOptions where
  config : Option Path := none
  cwd : Option Path := none
  concurrency : Option UInt64 := none
  tokenMode : Option TokenMode := none
  deriving DecidableEq

inductive Command where
  /-- Find imports and write the plan of bundles. -/
  | analyze (options : ConfigOptions) (out : Option Path)
  /-- Merge generated files into build output. -/
  | append (options : ConfigOptions)
  /-- Analyze, then merge. -/
  | build (options : ConfigOptions) (out : Option Path)
  /-- Build, and again whenever files change. -/
  | watch (options : ConfigOptions) (out : Option Path) (debounce : Option UInt64)
      (analyzeOnly : Bool)
  /-- Load the configuration and check it. -/
  | check (options : ConfigOptions) (files print : Bool)
  deriving DecidableEq

def Command.options : Command → ConfigOptions
  | analyze options _ | append options | build options _ | watch options .. | check options .. =>
      options

/-- A command with what is said about all output. -/
structure CommandLine where
  verbose : Bool := false
  quiet : Bool := false
  noColor : Bool := false
  command : Command
  deriving DecidableEq

end VendorBundle
