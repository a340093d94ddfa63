import DebianInstaller.Packages.Inside
import DebianInstaller.Packages.Anna
import DebianInstaller.Packages.Leftover
import DebianInstaller.Packages.Providers
import DebianInstaller.Packages.ReleaseFile
import DebianInstaller.Packages.Choices
import DebianInstaller.Packages.ChooseModules
import DebianInstaller.Packages.MemChunk
import DebianInstaller.PkgList.Parent
import DebianInstaller.KernelWedge.Closed
import DebianInstaller.Debootstrap.Indices
import DebianInstaller.Debootstrap.Calls
import DebianInstaller.Debootstrap.InlineSig
import DebianInstaller.Mklibs.Needed
import DebianInstaller.ChooseMirror.CrossCheck
import DebianInstaller.MainMenu.Depth
import DebianInstaller.Udpkg.AnyOrder
import DebianInstaller.Udpkg.Resolve
import DebianInstaller.Udpkg.ReadByLibrary
import DebianInstaller.Partman.SetupPartition
import DebianInstaller.Partman.VgMap
import DebianInstaller.Partman.Expand
import DebianInstaller.Partman.Fifo
import DebianInstaller.Partman.Attempts
import DebianInstaller.Partman.Positions
import DebianInstaller.Partman.Longint
import DebianInstaller.Partman.PerformResizing
import DebianInstaller.Debconf.Drivers
import DebianInstaller.Debconf.Copydb
import DebianInstaller.Debconf.Purge
import DebianInstaller.Debconf.Client
import DebianInstaller.Debconf.BlankLines
import DebianInstaller.Debconf.SetGet
import DebianInstaller.Debconf.Saving
import DebianInstaller.Debconf.Overrun
import DebianInstaller.Debconf.Fallback
import DebianInstaller.Debconf.Loadfile
import DebianInstaller.Debconf.EscapeFilter
import DebianInstaller.Debconf.Unescape
import DebianInstaller.Debconf.Seen
import DebianInstaller.Debconf.Newlines
import DebianInstaller.Debconf.Directives
import DebianInstaller.Debconf.Multiselect
import DebianInstaller.Debconf.Align
import DebianInstaller.Netcfg.Bounds
import DebianInstaller.Netcfg.Netmask
import DebianInstaller.Netcfg.Nameservers
import DebianInstaller.Netcfg.WriteInterface
import DebianInstaller.Zfcp.Completeness
import DebianInstaller.Preseed.Runs
import DebianInstaller.FlashKernel.Lookup
import DebianInstaller.FlashKernel.MtdSizes
