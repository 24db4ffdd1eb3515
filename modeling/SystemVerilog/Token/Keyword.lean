/-!
# Reserved words

The reserved words of the language and the six suffixes of time literals. A word is reserved only
as a whole: `Keyword.ofWord?` finds the reserved word with exactly that spelling.
-/

namespace SystemVerilog

/-- A reserved word, or the suffix of a time literal. -/
inductive Keyword where
  | kwAcceptOn | kwAlias | kwAlways | kwAlwaysComb | kwAlwaysFf | kwAlwaysLatch | kwAnd
  | kwAssert | kwAssign | kwAssume | kwAutomatic | kwBefore | kwBegin | kwBind | kwBins
  | kwBinsof | kwBit | kwBreak | kwBuf | kwBufif0 | kwBufif1 | kwByte | kwCase | kwCasex
  | kwCasez | kwCell | kwChandle | kwChecker | kwClass | kwClocking | kwCmos | kwConfig
  | kwConst | kwConstraint | kwContext | kwContinue | kwCover | kwCovergroup | kwCoverpoint
  | kwCross | kwDeassign | kwDefault | kwDefparam | kwDesign | kwDisable | kwDist | kwDo
  | kwEdge | kwElse | kwEnd | kwEndCase | kwEndChecker | kwEndClass | kwEndClocking
  | kwEndConfig | kwEndFunction | kwEndGenerate | kwEndGroup | kwEndInterface | kwEndModule
  | kwEndPackage | kwEndPrimitive | kwEndProgram | kwEndProperty | kwEndSpecify | kwEndSequence
  | kwEndTable | kwEndTask | kwEnum | kwEvent | kwEventually | kwExpect | kwExport | kwExtends
  | kwExtern | kwFinal | kwFirstMatch | kwFor | kwForce | kwForeach | kwForever | kwFork
  | kwForkjoin | kwFunction | kwGenerate | kwGenvar | kwGlobal | kwHighz0 | kwHighz1 | kwIf
  | kwIff | kwIfnone | kwIgnoreBins | kwIllegalBins | kwImplements | kwImplies | kwImport
  | kwIncdir | kwInclude | kwInitial | kwInout | kwInput | kwInside | kwInstance | kwInt
  | kwInteger | kwInterconnect | kwInterface | kwIntersect | kwJoin | kwJoinAny | kwJoinNone
  | kwLarge | kwLet | kwLiblist | kwLibrary | kwLocal | kwLocalparam | kwLogic | kwLongint
  | kwMacromodule | kwMatches | kwMedium | kwModport | kwModule | kwNand | kwNegedge
  | kwNettype | kwNew | kwNexttime | kwNmos | kwNor | kwNoshowcancelled | kwNot | kwNotif0
  | kwNotif1 | kwNull | kwOr | kwOutput | kwPackage | kwPacked | kwParameter | kwPmos
  | kwPosedge | kwPrimitive | kwPriority | kwProgram | kwProperty | kwProtected | kwPull0
  | kwPull1 | kwPulldown | kwPullup | kwPulsestyleOndetect | kwPulsestyleOnevent | kwPure
  | kwRand | kwRandc | kwRandcase | kwRandsequence | kwRcmos | kwReal | kwRealtime | kwRef
  | kwReg | kwRejectOn | kwRelease | kwRepeat | kwRestrict | kwReturn | kwRnmos | kwRpmos
  | kwRtran | kwRtranif0 | kwRtranif1 | kwSAlways | kwSEventually | kwSNexttime | kwSUntil
  | kwSUntilWith | kwScalared | kwSequence | kwShortint | kwShortreal | kwShowcancelled
  | kwSigned | kwSmall | kwSoft | kwSolve | kwSpecify | kwSpecparam | kwStatic | kwString
  | kwStrong | kwStrong0 | kwStrong1 | kwStruct | kwSuper | kwSupply0 | kwSupply1
  | kwSyncAcceptOn | kwSyncRejectOn | kwTable | kwTagged | kwTask | kwThis | kwThroughout
  | kwTime | kwTimeprecision | kwTimeunit | kwTran | kwTranif0 | kwTranif1 | kwTri | kwTri0
  | kwTri1 | kwTriand | kwTrior | kwTrireg | kwType | kwTypedef | kwUnion | kwUnique
  | kwUnique0 | kwUnsigned | kwUntil | kwUntilWith | kwUntyped | kwUse | kwUwire | kwVar
  | kwVectored | kwVirtual | kwVoid | kwWait | kwWaitOrder | kwWand | kwWeak | kwWeak0
  | kwWeak1 | kwWhile | kwWildcard | kwWire | kwWith | kwWithin | kwWor | kwXnor | kwXor
  | kwSecond | kwMilliSecond | kwMicroSecond | kwNanoSecond | kwPicoSecond | kwFemtoSecond
  deriving DecidableEq, Repr, Inhabited

namespace Keyword

/-- The spelling of a reserved word. -/
def spelling : Keyword → String
  | kwAcceptOn => "accept_on"
  | kwAlias => "alias"
  | kwAlways => "always"
  | kwAlwaysComb => "always_comb"
  | kwAlwaysFf => "always_ff"
  | kwAlwaysLatch => "always_latch"
  | kwAnd => "and"
  | kwAssert => "assert"
  | kwAssign => "assign"
  | kwAssume => "assume"
  | kwAutomatic => "automatic"
  | kwBefore => "before"
  | kwBegin => "begin"
  | kwBind => "bind"
  | kwBins => "bins"
  | kwBinsof => "binsof"
  | kwBit => "bit"
  | kwBreak => "break"
  | kwBuf => "buf"
  | kwBufif0 => "bufif0"
  | kwBufif1 => "bufif1"
  | kwByte => "byte"
  | kwCase => "case"
  | kwCasex => "casex"
  | kwCasez => "casez"
  | kwCell => "cell"
  | kwChandle => "chandle"
  | kwChecker => "checker"
  | kwClass => "class"
  | kwClocking => "clocking"
  | kwCmos => "cmos"
  | kwConfig => "config"
  | kwConst => "const"
  | kwConstraint => "constraint"
  | kwContext => "context"
  | kwContinue => "continue"
  | kwCover => "cover"
  | kwCovergroup => "covergroup"
  | kwCoverpoint => "coverpoint"
  | kwCross => "cross"
  | kwDeassign => "deassign"
  | kwDefault => "default"
  | kwDefparam => "defparam"
  | kwDesign => "design"
  | kwDisable => "disable"
  | kwDist => "dist"
  | kwDo => "do"
  | kwEdge => "edge"
  | kwElse => "else"
  | kwEnd => "end"
  | kwEndCase => "endcase"
  | kwEndChecker => "endchecker"
  | kwEndClass => "endclass"
  | kwEndClocking => "endclocking"
  | kwEndConfig => "endconfig"
  | kwEndFunction => "endfunction"
  | kwEndGenerate => "endgenerate"
  | kwEndGroup => "endgroup"
  | kwEndInterface => "endinterface"
  | kwEndModule => "endmodule"
  | kwEndPackage => "endpackage"
  | kwEndPrimitive => "endprimitive"
  | kwEndProgram => "endprogram"
  | kwEndProperty => "endproperty"
  | kwEndSpecify => "endspecify"
  | kwEndSequence => "endsequence"
  | kwEndTable => "endtable"
  | kwEndTask => "endtask"
  | kwEnum => "enum"
  | kwEvent => "event"
  | kwEventually => "eventually"
  | kwExpect => "expect"
  | kwExport => "export"
  | kwExtends => "extends"
  | kwExtern => "extern"
  | kwFinal => "final"
  | kwFirstMatch => "first_match"
  | kwFor => "for"
  | kwForce => "force"
  | kwForeach => "foreach"
  | kwForever => "forever"
  | kwFork => "fork"
  | kwForkjoin => "forkjoin"
  | kwFunction => "function"
  | kwGenerate => "generate"
  | kwGenvar => "genvar"
  | kwGlobal => "global"
  | kwHighz0 => "highz0"
  | kwHighz1 => "highz1"
  | kwIf => "if"
  | kwIff => "iff"
  | kwIfnone => "ifnone"
  | kwIgnoreBins => "ignore_bins"
  | kwIllegalBins => "illegal_bins"
  | kwImplements => "implements"
  | kwImplies => "implies"
  | kwImport => "import"
  | kwIncdir => "incdir"
  | kwInclude => "include"
  | kwInitial => "initial"
  | kwInout => "inout"
  | kwInput => "input"
  | kwInside => "inside"
  | kwInstance => "instance"
  | kwInt => "int"
  | kwInteger => "integer"
  | kwInterconnect => "interconnect"
  | kwInterface => "interface"
  | kwIntersect => "intersect"
  | kwJoin => "join"
  | kwJoinAny => "join_any"
  | kwJoinNone => "join_none"
  | kwLarge => "large"
  | kwLet => "let"
  | kwLiblist => "liblist"
  | kwLibrary => "library"
  | kwLocal => "local"
  | kwLocalparam => "localparam"
  | kwLogic => "logic"
  | kwLongint => "longint"
  | kwMacromodule => "macromodule"
  | kwMatches => "matches"
  | kwMedium => "medium"
  | kwModport => "modport"
  | kwModule => "module"
  | kwNand => "nand"
  | kwNegedge => "negedge"
  | kwNettype => "nettype"
  | kwNew => "new"
  | kwNexttime => "nexttime"
  | kwNmos => "nmos"
  | kwNor => "nor"
  | kwNoshowcancelled => "noshowcancelled"
  | kwNot => "not"
  | kwNotif0 => "notif0"
  | kwNotif1 => "notif1"
  | kwNull => "null"
  | kwOr => "or"
  | kwOutput => "output"
  | kwPackage => "package"
  | kwPacked => "packed"
  | kwParameter => "parameter"
  | kwPmos => "pmos"
  | kwPosedge => "posedge"
  | kwPrimitive => "primitive"
  | kwPriority => "priority"
  | kwProgram => "program"
  | kwProperty => "property"
  | kwProtected => "protected"
  | kwPull0 => "pull0"
  | kwPull1 => "pull1"
  | kwPulldown => "pulldown"
  | kwPullup => "pullup"
  | kwPulsestyleOndetect => "pulsestyle_ondetect"
  | kwPulsestyleOnevent => "pulsestyle_onevent"
  | kwPure => "pure"
  | kwRand => "rand"
  | kwRandc => "randc"
  | kwRandcase => "randcase"
  | kwRandsequence => "randsequence"
  | kwRcmos => "rcmos"
  | kwReal => "real"
  | kwRealtime => "realtime"
  | kwRef => "ref"
  | kwReg => "reg"
  | kwRejectOn => "reject_on"
  | kwRelease => "release"
  | kwRepeat => "repeat"
  | kwRestrict => "restrict"
  | kwReturn => "return"
  | kwRnmos => "rnmos"
  | kwRpmos => "rpmos"
  | kwRtran => "rtran"
  | kwRtranif0 => "rtranif0"
  | kwRtranif1 => "rtranif1"
  | kwSAlways => "s_always"
  | kwSEventually => "s_eventually"
  | kwSNexttime => "s_nexttime"
  | kwSUntil => "s_until"
  | kwSUntilWith => "s_until_with"
  | kwScalared => "scalared"
  | kwSequence => "sequence"
  | kwShortint => "shortint"
  | kwShortreal => "shortreal"
  | kwShowcancelled => "showcancelled"
  | kwSigned => "signed"
  | kwSmall => "small"
  | kwSoft => "soft"
  | kwSolve => "solve"
  | kwSpecify => "specify"
  | kwSpecparam => "specparam"
  | kwStatic => "static"
  | kwString => "string"
  | kwStrong => "strong"
  | kwStrong0 => "strong0"
  | kwStrong1 => "strong1"
  | kwStruct => "struct"
  | kwSuper => "super"
  | kwSupply0 => "supply0"
  | kwSupply1 => "supply1"
  | kwSyncAcceptOn => "sync_accept_on"
  | kwSyncRejectOn => "sync_reject_on"
  | kwTable => "table"
  | kwTagged => "tagged"
  | kwTask => "task"
  | kwThis => "this"
  | kwThroughout => "throughout"
  | kwTime => "time"
  | kwTimeprecision => "timeprecision"
  | kwTimeunit => "timeunit"
  | kwTran => "tran"
  | kwTranif0 => "tranif0"
  | kwTranif1 => "tranif1"
  | kwTri => "tri"
  | kwTri0 => "tri0"
  | kwTri1 => "tri1"
  | kwTriand => "triand"
  | kwTrior => "trior"
  | kwTrireg => "trireg"
  | kwType => "type"
  | kwTypedef => "typedef"
  | kwUnion => "union"
  | kwUnique => "unique"
  | kwUnique0 => "unique0"
  | kwUnsigned => "unsigned"
  | kwUntil => "until"
  | kwUntilWith => "until_with"
  | kwUntyped => "untyped"
  | kwUse => "use"
  | kwUwire => "uwire"
  | kwVar => "var"
  | kwVectored => "vectored"
  | kwVirtual => "virtual"
  | kwVoid => "void"
  | kwWait => "wait"
  | kwWaitOrder => "wait_order"
  | kwWand => "wand"
  | kwWeak => "weak"
  | kwWeak0 => "weak0"
  | kwWeak1 => "weak1"
  | kwWhile => "while"
  | kwWildcard => "wildcard"
  | kwWire => "wire"
  | kwWith => "with"
  | kwWithin => "within"
  | kwWor => "wor"
  | kwXnor => "xnor"
  | kwXor => "xor"
  | kwSecond => "s"
  | kwMilliSecond => "ms"
  | kwMicroSecond => "us"
  | kwNanoSecond => "ns"
  | kwPicoSecond => "ps"
  | kwFemtoSecond => "fs"

/-- Every reserved word. -/
def all : List Keyword :=
  [ .kwAcceptOn, .kwAlias, .kwAlways, .kwAlwaysComb, .kwAlwaysFf, .kwAlwaysLatch, .kwAnd,
    .kwAssert, .kwAssign, .kwAssume, .kwAutomatic, .kwBefore, .kwBegin, .kwBind, .kwBins,
    .kwBinsof, .kwBit, .kwBreak, .kwBuf, .kwBufif0, .kwBufif1, .kwByte, .kwCase, .kwCasex,
    .kwCasez, .kwCell, .kwChandle, .kwChecker, .kwClass, .kwClocking, .kwCmos, .kwConfig,
    .kwConst, .kwConstraint, .kwContext, .kwContinue, .kwCover, .kwCovergroup, .kwCoverpoint,
    .kwCross, .kwDeassign, .kwDefault, .kwDefparam, .kwDesign, .kwDisable, .kwDist, .kwDo,
    .kwEdge, .kwElse, .kwEnd, .kwEndCase, .kwEndChecker, .kwEndClass, .kwEndClocking,
    .kwEndConfig, .kwEndFunction, .kwEndGenerate, .kwEndGroup, .kwEndInterface, .kwEndModule,
    .kwEndPackage, .kwEndPrimitive, .kwEndProgram, .kwEndProperty, .kwEndSpecify,
    .kwEndSequence, .kwEndTable, .kwEndTask, .kwEnum, .kwEvent, .kwEventually, .kwExpect,
    .kwExport, .kwExtends, .kwExtern, .kwFinal, .kwFirstMatch, .kwFor, .kwForce, .kwForeach,
    .kwForever, .kwFork, .kwForkjoin, .kwFunction, .kwGenerate, .kwGenvar, .kwGlobal,
    .kwHighz0, .kwHighz1, .kwIf, .kwIff, .kwIfnone, .kwIgnoreBins, .kwIllegalBins,
    .kwImplements, .kwImplies, .kwImport, .kwIncdir, .kwInclude, .kwInitial, .kwInout,
    .kwInput, .kwInside, .kwInstance, .kwInt, .kwInteger, .kwInterconnect, .kwInterface,
    .kwIntersect, .kwJoin, .kwJoinAny, .kwJoinNone, .kwLarge, .kwLet, .kwLiblist, .kwLibrary,
    .kwLocal, .kwLocalparam, .kwLogic, .kwLongint, .kwMacromodule, .kwMatches, .kwMedium,
    .kwModport, .kwModule, .kwNand, .kwNegedge, .kwNettype, .kwNew, .kwNexttime, .kwNmos,
    .kwNor, .kwNoshowcancelled, .kwNot, .kwNotif0, .kwNotif1, .kwNull, .kwOr, .kwOutput,
    .kwPackage, .kwPacked, .kwParameter, .kwPmos, .kwPosedge, .kwPrimitive, .kwPriority,
    .kwProgram, .kwProperty, .kwProtected, .kwPull0, .kwPull1, .kwPulldown, .kwPullup,
    .kwPulsestyleOndetect, .kwPulsestyleOnevent, .kwPure, .kwRand, .kwRandc, .kwRandcase,
    .kwRandsequence, .kwRcmos, .kwReal, .kwRealtime, .kwRef, .kwReg, .kwRejectOn, .kwRelease,
    .kwRepeat, .kwRestrict, .kwReturn, .kwRnmos, .kwRpmos, .kwRtran, .kwRtranif0, .kwRtranif1,
    .kwSAlways, .kwSEventually, .kwSNexttime, .kwSUntil, .kwSUntilWith, .kwScalared,
    .kwSequence, .kwShortint, .kwShortreal, .kwShowcancelled, .kwSigned, .kwSmall, .kwSoft,
    .kwSolve, .kwSpecify, .kwSpecparam, .kwStatic, .kwString, .kwStrong, .kwStrong0,
    .kwStrong1, .kwStruct, .kwSuper, .kwSupply0, .kwSupply1, .kwSyncAcceptOn, .kwSyncRejectOn,
    .kwTable, .kwTagged, .kwTask, .kwThis, .kwThroughout, .kwTime, .kwTimeprecision,
    .kwTimeunit, .kwTran, .kwTranif0, .kwTranif1, .kwTri, .kwTri0, .kwTri1, .kwTriand,
    .kwTrior, .kwTrireg, .kwType, .kwTypedef, .kwUnion, .kwUnique, .kwUnique0, .kwUnsigned,
    .kwUntil, .kwUntilWith, .kwUntyped, .kwUse, .kwUwire, .kwVar, .kwVectored, .kwVirtual,
    .kwVoid, .kwWait, .kwWaitOrder, .kwWand, .kwWeak, .kwWeak0, .kwWeak1, .kwWhile,
    .kwWildcard, .kwWire, .kwWith, .kwWithin, .kwWor, .kwXnor, .kwXor, .kwSecond,
    .kwMilliSecond, .kwMicroSecond, .kwNanoSecond, .kwPicoSecond, .kwFemtoSecond ]

/-- The reserved word with this spelling. -/
def ofWord? (word : String) : Option Keyword := all.find? fun k => k.spelling == word

/-! ### Classes of reserved words -/

/-- Suffixes of time literals; they also serve as names. -/
def isTimeUnit : Keyword → Bool
  | kwSecond | kwMilliSecond | kwMicroSecond | kwNanoSecond | kwPicoSecond | kwFemtoSecond => true
  | _ => false

/-- Words for the direction of a port. -/
def isDirection : Keyword → Bool
  | kwInput | kwOutput | kwInout => true
  | _ => false

/-- Words for a kind of net, and the word that introduces a variable. -/
def isNetType : Keyword → Bool
  | kwWire | kwTri | kwTri0 | kwTri1 | kwTriand | kwTrior | kwTrireg | kwWand | kwWor | kwUwire
  | kwSupply0 | kwSupply1 | kwVar => true
  | _ => false

/-- Data types made of single bits, which take packed dimensions. -/
def isIntegerVectorType : Keyword → Bool
  | kwLogic | kwBit | kwReg => true
  | _ => false

/-- Integer data types of a fixed width. -/
def isIntegerAtomType : Keyword → Bool
  | kwInt | kwInteger | kwByte | kwShortint | kwLongint | kwTime => true
  | _ => false

/-- Data types that are no integers; they take no sign. -/
def isNonIntegerType : Keyword → Bool
  | kwReal | kwShortreal | kwRealtime | kwString => true
  | _ => false

/-- Words for the state of unconnected inputs. -/
def isPull : Keyword → Bool
  | kwPull0 | kwPull1 => true
  | _ => false

/-- Words that name a data type. -/
def namesDataType (k : Keyword) : Bool :=
  k.isIntegerVectorType || k.isIntegerAtomType || k.isNonIntegerType

end Keyword

end SystemVerilog
