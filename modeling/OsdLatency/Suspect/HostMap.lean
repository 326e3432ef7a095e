import OsdLatency.Table
import OsdLatency.Text.Column
import OsdLatency.Text.Decimal
import OsdLatency.Text.Line
import OsdLatency.Text.Scanner

/-!
# Hosts of OSDs

The tree of a cluster lists each host before its OSDs. A line that starts with a minus sign and
mentions `host` opens a host, whose name is the last column. A line that mentions an OSD belongs to
the host opened last.

## Main definitions

* `HostMap` — the host of each OSD
* `HostMap.ofText` — the hosts of a tree
-/

namespace OsdLatency

/-- The host of each OSD. -/
abbrev HostMap := Table UInt32 String

namespace HostMap

/-- The host opened last and the hosts known so far. -/
structure Progress where
  host : Option String
  hosts : HostMap

/-- Whether a line is passed over: a blank one, the heading, or one of the totals. -/
def isIdle (line : List Char) : Bool :=
  line.all Text.isBlank || "ID".toList.isPrefixOf line || "MIN/MAX".toList.isPrefixOf line
    || "TOTAL".toList.isPrefixOf line

/-- Whether a line opens a host. -/
def opensHost (line : List Char) : Bool :=
  line.head? == some '-' && Text.occursIn "host" line

/-- The text behind the mark of an OSD, if a column starts with it. -/
def behindMark? (column : List Char) : Option (List Char) :=
  if "osd.".toList.isPrefixOf column then some (column.drop 4) else none

/-- The OSD of a line: the number in the first column that starts with the mark, up to the next
point. -/
def osdOf? (line : List Char) : Option UInt32 :=
  ((Text.columns line).findSome? behindMark?).bind fun text =>
    Text.uint32? (Text.dropPlus (text.takeWhile (· != '.')))

/-- Read one line of the tree. -/
def Progress.step (progress : Progress) (line : List Char) : Progress :=
  if isIdle line then progress
  else
    -- A line can open a host and name an OSD, which then belongs to that host.
    let host :=
      if opensHost line then (Text.columns line).getLast?.map String.ofList else progress.host
    let hosts :=
      if Text.occursIn "osd." line then
        match osdOf? line, host with
        | some osd, some host => progress.hosts.insert osd host
        | _, _ => progress.hosts
      else progress.hosts
    { host, hosts }

/-- The hosts of a tree. The last line of an OSD counts. -/
def ofText (text : List Char) : HostMap :=
  ((Text.lines text).foldl Progress.step { host := none, hosts := Table.empty }).hosts

/-- The host of an OSD that the tree does not name. -/
def unknownHost : String := "Unknown"

/-- The host of an OSD. -/
def hostOf (hosts : HostMap) (osd : UInt32) : String := (hosts.get? osd).getD unknownHost

end HostMap

end OsdLatency
